import Workflow.Completion.StateNames
import Workflow.Proofs.FieldContexts
import Workflow.Proofs.ScopeBlocks

/-!
# The names that are offered and the names that are accepted

A check goes down into a scope, takes the names that the scope declares, and compares them with the
references that it comes to.  The completion of a reference starts at the reference and climbs to
the scope.  Here the references of a scope are listed in the order of the check, each with its node,
and for each of them the two ways meet: what is offered are the names of the scope, without the
name of the state that declares the reference.
-/

namespace Workflow

namespace Check

/-! ## The references that a check looks at -/

section References

variable {names : List Text}

theorem referencesIn_append
    (fs gs : List Finding) :
    referencesIn (fs ++ gs) = referencesIn fs ++ referencesIn gs := by
  simp [referencesIn]

theorem referencesIn_flatMap
    {α : Type} (l : List α) (f : α → List Finding) :
    referencesIn (l.flatMap f) = l.flatMap fun a => referencesIn (f a) := by
  unfold referencesIn
  rw [List.filter_flatMap]

theorem referencesIn_reference
    {code : DiagnosticCode} (hcode : code.isReference = true) (p : Option (Property Tree)) :
    referencesIn (reference names code p) = reference names code p := by
  refine List.filter_eq_self.mpr fun f hf => ?_
  unfold reference at hf
  split at hf
  · split at hf
    · cases hf
    · rw [List.mem_singleton.mp hf]
      exact hcode
  · cases hf

theorem referencesIn_rules
    (field : Text) (state : Tree) :
    referencesIn (rules names field state).1 = (rules names field state).1 := by
  unfold rules
  split
  · rfl
  · rw [referencesIn_flatMap]
    exact List.flatMap_congr fun p _ => referencesIn_reference rfl _

theorem referencesIn_caught
    (state : Tree) :
    referencesIn (caught names state).1 = (caught names state).1 := by
  unfold caught
  split
  · exact referencesIn_rules _ _
  · rfl

theorem referencesIn_chosen
    (state : Tree) :
    referencesIn (chosen names state).1 = (chosen names state).1 := by
  unfold chosen
  split
  · rw [referencesIn_append, referencesIn_reference rfl, referencesIn_rules]
  · rfl

end References

/-- What a part of a check finds at fields, also where it fails. -/
theorem aboutFields_found
    {x : Except Fault (List Finding)} {safe : Prop} (hx : Delivers x safe AboutFields) :
    AboutFields (found x) := by
  cases x with
  | error fault => exact aboutFields_nil
  | ok fs => exact hx.yields fs rfl

/-- What is wrong with the references of a scope, in the order in which a check comes to them. -/
def wrongReferences (lenient : Bool) (scope : Tree) : List Finding :=
  (if (scope.property? statesKey).isSome then
    reference (namesIn lenient scope) .invalidStartAt (scope.property? "StartAt") else []) ++
  (declaredIn scope).flatMap fun field =>
    (caught (namesIn lenient scope) field.2).1 ++ (chosen (namesIn lenient scope) field.2).1 ++
      reference (namesIn lenient scope) .invalidNext (field.2.property? "Next")

section Trace

variable (schema : Value) (lenient : Bool)

theorem referencesIn_opening
    (kind : ScopeKind) (scope : Tree) :
    referencesIn (opening schema lenient kind scope) =
      if (scope.property? statesKey).isSome then
        reference (namesIn lenient scope) .invalidStartAt (scope.property? "StartAt") else [] := by
  rw [opening, referencesIn_append,
    (aboutFields_found (scopeFields_delivers schema kind _)).referencesIn_eq, List.nil_append]
  split
  · exact referencesIn_reference rfl _
  · rfl

theorem referencesIn_stateOpening
    (names : List Text) (state : Tree) :
    referencesIn (stateOpening schema names state) = (caught names state).1 := by
  have hfields := (aboutFields_found (Tables.stateFindings_delivers schema state)).referencesIn_eq
  have hkind : AboutFields (kindFindings [] state) := by
    unfold kindFindings
    split
    · exact aboutFields_append.mpr ⟨aboutFields_propertyFindings _, aboutFields_nil⟩
    · exact aboutFields_nil
    · exact aboutFields_failPathFindings _
    · exact aboutFields_nil
  simp only [stateOpening, referencesIn_append, hfields, referencesIn_caught,
    (aboutFields_templates state).1.referencesIn_eq,
    (aboutFields_templates state).2.referencesIn_eq, hkind.referencesIn_eq, List.nil_append,
    List.append_nil]

theorem referencesIn_stateClosing
    (names : List Text) (state : Tree) :
    referencesIn (stateClosing names state) = stateClosing names state := by
  rw [stateClosing, referencesIn_append, referencesIn_chosen, referencesIn_reference rfl]

theorem referencesIn_closing
    (scope : Tree) :
    referencesIn (closing lenient scope) = [] := by
  refine List.filter_eq_nil_iff.mpr fun f hf => ?_
  unfold closing at hf
  split at hf
  · rcases List.mem_append.mp hf with hf | hf
    · unfold missingEnd at hf
      split at hf
      · cases hf
      · rw [List.mem_singleton.mp hf]
        exact Bool.false_ne_true
    · unfold unreached at hf
      obtain ⟨field, -, hf⟩ := List.mem_filterMap.mp hf
      dsimp only at hf
      split at hf
      · cases hf
      · cases hf
        exact Bool.false_ne_true
  · cases hf

/-- What is wrong with references among what is found at the end of a route. -/
def referencesAt (route : Route) (found : List (Routed Finding)) : List Finding :=
  referencesIn ((found.filter fun x => decide (x.1 = route)).map Prod.snd)

theorem referencesAt_append
    (route : Route) (fs gs : List (Routed Finding)) :
    referencesAt route (fs ++ gs) = referencesAt route fs ++ referencesAt route gs := by
  simp [referencesAt, referencesIn_append]

theorem referencesAt_flatMap
    {α : Type} (route : Route) (l : List α) (f : α → List (Routed Finding)) :
    referencesAt route (l.flatMap f) = l.flatMap fun a => referencesAt route (f a) := by
  unfold referencesAt
  rw [List.filter_flatMap, List.map_flatMap, referencesIn_flatMap]

@[simp] theorem referencesAt_here
    (fs : List Finding) :
    referencesAt [] (here fs) = referencesIn fs := by
  rw [referencesAt, List.filter_eq_self.mpr, map_snd_here]
  intro x hx
  rw [route_of_mem_here hx]
  rfl

/-- Behind a route, the rest of the way decides. -/
theorem referencesAt_behind
    (route rest : Route) (fs : List (Routed Finding)) :
    referencesAt (route ++ rest) (behind route fs) = referencesAt rest fs := by
  rw [referencesAt, behind, List.filter_map, List.map_map]
  simp [referencesAt, Function.comp_def]

/-- What is found elsewhere is not found at the end of the route. -/
theorem referencesAt_of_apart
    {route : Route} {fs : List (Routed Finding)} (h : Apart route fs) :
    referencesAt route fs = [] := by
  rw [referencesAt, List.filter_eq_nil_iff.mpr]
  · rfl
  · intro x hx hroute
    exact h x hx (of_decide_eq_true hroute ▸ List.prefix_rfl)

@[simp] theorem referencesAt_nil_behind
    (step : Step) (fs : List (Routed Finding)) :
    referencesAt [] (behind [step] fs) = [] := by
  rw [referencesAt, List.filter_eq_nil_iff.mpr]
  · rfl
  · intro x hx
    obtain ⟨y, -, rfl⟩ := List.mem_map.mp hx
    simp

/-- What a check finds wrong with the references of the scope where it starts. -/
theorem referencesAt_nil_trace
    (levels : Nat) (kind : ScopeKind) (scope : Tree) :
    referencesAt [] (trace schema lenient (levels + 1) kind scope) =
      wrongReferences lenient scope := by
  have hnested : ∀ (field : Key × Tree) (i : Nat),
      ((stepsInto field i).flatMap fun x => referencesAt []
        (behind [x.1] (trace schema lenient levels x.2.1 x.2.2))) = [] := by
    intro field i
    simp
  rw [trace]
  simp only [referencesAt_append, referencesAt_flatMap, referencesAt_here, hnested,
    referencesIn_opening, referencesIn_stateOpening, referencesIn_stateClosing,
    referencesIn_closing, List.append_nil]
  rw [wrongReferences]
  congr 1
  conv_rhs => rw [← List.zipIdx_map_fst 0 (declaredIn scope), List.flatMap_map]
  simp only [stateClosing, List.append_assoc]

/-- What a check finds wrong with the references of a scope that it enters. -/
theorem referencesAt_trace
    {levels : Nat} {kind : ScopeKind} {tree : Tree} {e : Entry}
    (he : e ∈ entries levels kind tree) :
    referencesAt e.route (trace schema lenient levels kind tree) =
      wrongReferences lenient e.scope := by
  obtain ⟨hlength, before, after, htrace, hbefore, hafter⟩ :=
    block_of_mem_entries schema lenient levels kind tree e he
  obtain ⟨depth, hdepth⟩ := Nat.exists_eq_add_one_of_ne_zero (Nat.sub_ne_zero_of_lt hlength)
  have hblock := referencesAt_behind e.route [] (trace schema lenient (depth + 1) e.kind e.scope)
  rw [List.append_nil] at hblock
  rw [htrace, referencesAt_append, referencesAt_append, referencesAt_of_apart hbefore,
    referencesAt_of_apart hafter, List.nil_append, List.append_nil, hdepth, hblock,
    referencesAt_nil_trace]

end Trace

end Check

namespace Focus

/-! ## The nodes of the references -/

/-- A reference that a check looks at: its node, the code for a wrong one, and the name of the state
that declares it. -/
structure CheckedReference where
  node : Focus
  code : DiagnosticCode
  holder : Option Text

/-- What a check finds at a reference, given the names of the scope. -/
def CheckedReference.findings (names : List Text) (r : CheckedReference) : List Finding :=
  Check.reference names r.code r.node.part.property?

/-- The `Next` properties of the rules in a field of a state. -/
def ruleNodes (state : Focus) (field : Text) : List Focus :=
  match (state.property? field).bind value? with
  | some rules =>
    if rules.part.isArray then rules.children.filterMap fun rule => rule.property? "Next" else []
  | none => []

/-- The references of a state, in the order of the check. -/
def stateReferences (id : Text) (state : Focus) : List CheckedReference :=
  let kind := state.part.tree?.bind Check.kindOf
  (if kind.any StateKind.handlesErrors then
    (ruleNodes state "Catch").map fun node => ⟨node, .invalidNext, some id⟩ else []) ++
  (if kind == some .choice then
    (state.property? "Default").toList.map (fun node => ⟨node, .invalidDefault, some id⟩) ++
      (ruleNodes state "Choices").map fun node => ⟨node, .invalidNext, some id⟩ else []) ++
  (state.property? "Next").toList.map fun node => ⟨node, .invalidNext, some id⟩

/-- The states that a scope declares with objects: their names and the nodes of the objects. -/
def stateNodes (scope : Focus) : List (Text × Focus) :=
  match (scope.property? statesKey).bind value? with
  | some mapping =>
    if mapping.part.isObject then
      mapping.children.filterMap fun declaration =>
        match declaration.part.propertyName?, declaration.value? with
        | some id, some state => if state.part.isObject then some (id, state) else none
        | _, _ => none
    else []
  | none => []

/-- The references of a scope, in the order of the check. -/
def references (scope : Focus) : List CheckedReference :=
  (if (scope.property? statesKey).isSome then
    (scope.property? "StartAt").toList.map fun node => ⟨node, .invalidStartAt, none⟩ else []) ++
  scope.stateNodes.flatMap fun state => stateReferences state.1 state.2

section Nodes

variable {f : Focus} {t : Tree} (hpart : f.part = .tree t)

include hpart

/-- A property, as a reference, with what the check finds there. -/
theorem findings_property?
    (names : List Text) (name : Text) (code : DiagnosticCode) (holder : Option Text) :
    (((f.property? name).toList.map fun node => (⟨node, code, holder⟩ : CheckedReference)).flatMap
      (CheckedReference.findings names)) = Check.reference names code (t.property? name) := by
  obtain ⟨i, hi⟩ := property?_of_tree hpart name
  rw [hi]
  cases t.property? name with
  | none => rfl
  | some p => simp [CheckedReference.findings, Part.property?]

/-- The rules of a field, with what the check finds there. -/
theorem findings_ruleNodes
    (names : List Text) (field : Text) (holder : Option Text) :
    ((ruleNodes f field).map fun node =>
      (⟨node, .invalidNext, holder⟩ : CheckedReference)).flatMap (CheckedReference.findings names) =
      (Check.rules names field t).1 := by
  obtain ⟨i, hi⟩ := value?_property?_of_tree hpart field
  rw [ruleNodes, hi, Check.rules, Option.bind_assoc]
  cases hp : t.property? field with
  | none => rfl
  | some p =>
      cases hvalue : p.value with
      | none => simp [hvalue]
      | some u =>
          cases hitems : u.items? with
          | none => simp [hvalue, hitems, Part.isArray, Part.tree?]
          | some items =>
              simp only [Option.bind_some, hvalue, Option.map_some, hitems, Part.isArray,
                Part.tree?, Option.any_some, Option.isSome_some, if_true]
              rw [children_of_items rfl hitems, List.filterMap_map,
                List.filterMap_eq_flatMap_toList, List.map_flatMap, List.flatMap_assoc,
                List.filterMap_eq_flatMap_toList, List.flatMap_assoc]
              conv_rhs => rw [← List.zipIdx_map_fst 0 items, List.flatMap_map]
              refine List.flatMap_congr fun x _ => ?_
              refine (findings_property? rfl names "Next" .invalidNext holder).trans ?_
              cases x.1.property? "Next" with
              | none => rfl
              | some p => simp

/-- The references of a state, with what the check finds there. -/
theorem findings_stateReferences
    (names : List Text) (id : Text) :
    (stateReferences id f).flatMap (CheckedReference.findings names) =
      (Check.caught names t).1 ++ (Check.chosen names t).1 ++
        Check.reference names .invalidNext (t.property? "Next") := by
  rw [stateReferences, List.flatMap_append, List.flatMap_append, findings_property? hpart, hpart]
  congr 1
  congr 1
  · rw [Check.caught]
    cases hkind : (Check.kindOf t).any StateKind.handlesErrors with
    | true => simpa [Part.tree?, hkind] using findings_ruleNodes hpart names "Catch" (some id)
    | false => simp [Part.tree?, hkind]
  · rw [Check.chosen]
    cases hkind : Check.kindOf t == some .choice with
    | true =>
        simp only [Part.tree?, Option.bind_some, hkind, if_true, List.flatMap_append]
        rw [findings_property? hpart, findings_ruleNodes hpart]
    | false => simp [Part.tree?, hkind]

/-- The references of a scope, with what the check finds there. -/
theorem findings_references
    (lenient : Bool) :
    f.references.flatMap (CheckedReference.findings (Check.namesIn lenient t)) =
      Check.wrongReferences lenient t := by
  obtain ⟨i, hi⟩ := property?_of_tree hpart statesKey
  obtain ⟨j, hj⟩ := value?_property?_of_tree hpart statesKey
  rw [references, Check.wrongReferences, List.flatMap_append]
  congr 1
  · rw [hi, Option.isSome_map]
    split
    · exact findings_property? hpart _ _ _ _
    · rfl
  · rw [stateNodes, hj, Check.declaredIn, Check.mapping?, Option.bind_assoc]
    cases hstates : t.property? statesKey with
    | none => rfl
    | some states =>
        cases hvalue : states.value with
        | none => simp [hvalue, Check.declared]
        | some u =>
            cases hproperties : u.properties? with
            | none => simp [hvalue, hproperties, Part.isObject, Part.tree?, Tree.isObject,
                Check.declared]
            | some properties =>
                simp only [Option.bind_some, hvalue, Option.map_some, hproperties,
                  Option.getD_some, Part.isObject, Part.tree?, Option.any_some, Tree.isObject,
                  Option.isSome_some, if_true]
                rw [children_of_properties rfl hproperties, Check.declared, List.filterMap_map,
                  List.filterMap_eq_flatMap_toList, List.flatMap_assoc, List.flatMap_assoc,
                  List.filterMap_eq_flatMap_toList, List.flatMap_assoc]
                conv_rhs => rw [← List.zipIdx_map_fst 0 properties, List.flatMap_map]
                refine List.flatMap_congr fun x _ => ?_
                cases hstate : x.1.value with
                | none => simp [value?, hstate]
                | some w =>
                    cases hobject : w.isObject with
                    | false =>
                        simp [value?, hstate, hobject, Part.propertyName?, Part.property?]
                    | true =>
                        have hfound := findings_stateReferences
                          (f := ⟨.tree w, (.property x.1, 1) :: (.tree u, x.2) ::
                            (.property states, 1) :: (.tree t, j) :: f.above⟩) rfl
                          (Check.namesIn lenient t) x.1.key.name
                        simpa [value?, hstate, hobject, Part.propertyName?, Part.property?] using
                          hfound

end Nodes

/-! ## Climbing from a reference -/

/-- The node of a state of a scope, below the property that declares the states. -/
inductive StateNode (scope : Focus) (states : Property Tree) : Text → Focus → Prop
  | intro {t u w : Tree} {declaration : Property Tree} {i j : Nat} :
      StateNode scope states declaration.key.name ⟨.tree w, (.property declaration, 1) ::
        (.tree u, i) :: (.property states, 1) :: (.tree t, j) :: scope.above⟩

/-- The node of a reference of a state: a property of the state or of a rule in one of its fields. -/
inductive ReferenceNode (state : Focus) : Text → Focus → Prop
  | direct {p : Property Tree} {i : Nat} :
      ReferenceNode state p.key.name ⟨.property p, (state.part, i) :: state.above⟩
  | rule
      {p field : Property Tree} {item rules : Tree} {i j k : Nat}
      (hfield : field.key.name ≠ statesKey) :
      ReferenceNode state p.key.name ⟨.property p, (.tree item, i) :: (.tree rules, j) ::
        (.property field, 1) :: (state.part, k) :: state.above⟩

section Climbing

variable {f state node : Focus} {states : Property Tree} {id name : Text}

theorem stateNode_of_mem
    {t : Tree} (hpart : f.part = .tree t) {x : Text × Focus} (hx : x ∈ f.stateNodes) :
    ∃ states, t.property? statesKey = some states ∧ StateNode f states x.1 x.2 := by
  obtain ⟨j, hj⟩ := value?_property?_of_tree hpart statesKey
  rw [stateNodes, hj] at hx
  cases hstates : t.property? statesKey with
  | none =>
      rw [hstates] at hx
      cases hx
  | some states =>
      rw [hstates, Option.bind_some] at hx
      cases hvalue : states.value with
      | none =>
          rw [hvalue] at hx
          cases hx
      | some u =>
          rw [hvalue, Option.map_some] at hx
          dsimp only at hx
          split at hx
          · next hobject =>
              obtain ⟨properties, hproperties⟩ := Option.isSome_iff_exists.mp
                (show u.properties?.isSome = true from hobject)
              rw [children_of_properties rfl hproperties] at hx
              obtain ⟨g, hg, hx⟩ := List.mem_filterMap.mp hx
              obtain ⟨y, -, rfl⟩ := List.mem_map.mp hg
              refine ⟨states, rfl, ?_⟩
              cases hstate : y.1.value with
              | none =>
                  rw [value?] at hx
                  simp [hstate] at hx
              | some w =>
                  rw [value?] at hx
                  simp only [hstate, Option.map_some, Part.propertyName?, Part.property?] at hx
                  split at hx
                  · cases hx
                    exact StateNode.intro
                  · cases hx
          · cases hx

/-- The `Next` properties of rules are nodes of references. -/
theorem referenceNode_of_mem_ruleNodes
    {t : Tree} (hpart : state.part = .tree t) {field : Text} (hfield : field ≠ statesKey)
    (hnode : node ∈ ruleNodes state field) :
    ReferenceNode state "Next" node := by
  obtain ⟨i, hi⟩ := value?_property?_of_tree hpart field
  rw [ruleNodes, hi] at hnode
  cases hp : t.property? field with
  | none =>
      rw [hp] at hnode
      cases hnode
  | some p =>
      rw [hp, Option.bind_some] at hnode
      cases hvalue : p.value with
      | none =>
          rw [hvalue] at hnode
          cases hnode
      | some u =>
          rw [hvalue, Option.map_some] at hnode
          dsimp only at hnode
          split at hnode
          · next harray =>
              obtain ⟨items, hitems⟩ := Option.isSome_iff_exists.mp
                (show u.items?.isSome = true from harray)
              rw [children_of_items rfl hitems] at hnode
              obtain ⟨g, hg, hnode⟩ := List.mem_filterMap.mp hnode
              obtain ⟨y, -, rfl⟩ := List.mem_map.mp hg
              obtain ⟨j, hj⟩ := property?_of_tree (f := ⟨.tree y.1, _⟩) rfl "Next"
              rw [hj] at hnode
              obtain ⟨q, hq, rfl⟩ := Option.map_eq_some_iff.mp hnode
              rw [← hpart, ← Tree.name_of_property? hq]
              exact ReferenceNode.rule (by rw [Tree.name_of_property? hp]; exact hfield)
          · cases hnode

/-- A property of a state is the node of a reference. -/
theorem referenceNode_of_property?
    {t : Tree} (hpart : state.part = .tree t) (hnode : state.property? name = some node) :
    ReferenceNode state name node := by
  obtain ⟨i, hi⟩ := property?_of_tree hpart name
  rw [hi] at hnode
  obtain ⟨p, hp, rfl⟩ := Option.map_eq_some_iff.mp hnode
  rw [← hpart, ← Tree.name_of_property? hp]
  exact ReferenceNode.direct

/-- What is offered at a reference of a state: the names of its scope, without its own. -/
theorem candidates_of_referenceNode
    (hstates : states.key.name = statesKey) (hstate : StateNode f states id state)
    (hid : id ≠ statesKey) (hnode : ReferenceNode state name node)
    (hname : name = "Next" ∨ name = "Default") (lenient : Bool) :
    node.candidates lenient = (declaredNames lenient states).filter fun n => decide (id ≠ n) := by
  have hother : name ≠ statesKey := by
    rcases hname with rfl | rfl <;> decide
  have hclosest : (node.closest? [statesKey]).bind (fun g => g.part.property?) = some states := by
    cases hstate with
    | @intro t u w declaration i j =>
        have hclimb : (closest? ⟨.tree w, (.property declaration, 1) :: (.tree u, i) ::
            (.property states, 1) :: (.tree t, j) :: f.above⟩ [statesKey]).bind
              (fun g => g.part.property?) = some states := by
          rw [closest?_tree, closest?_property, if_neg (by simpa using hid), closest?_tree,
            closest?_property, if_pos (by simp [hstates])]
          rfl
        cases hnode with
        | direct => rw [closest?_property, if_neg (by simpa using hother), hclimb]
        | rule hfield =>
            rw [closest?_property, if_neg (by simpa using hother), closest?_tree, closest?_tree,
              closest?_property, if_neg (by simpa using hfield), hclimb]
  have hholder : node.holderName? = some id := by
    cases hstate with
    | intro =>
        cases hnode with
        | direct => rfl
        | rule hfield => rfl
  have hfound : node.part.propertyName? = some name := by
    cases hnode <;> rfl
  rw [candidates, hfound]
  dsimp only
  rw [if_neg (by rcases hname with rfl | rfl <;> decide), if_pos, hclosest]
  · dsimp only
    rw [hholder]
    refine List.filter_congr fun n _ => ?_
    rw [Bool.eq_iff_iff]
    simp
  · rcases hname with rfl | rfl <;> decide

/-- The references of a state are its own: they stand in `Next` and `Default`. -/
theorem referenceNode_of_mem_stateReferences
    {t : Tree} (hpart : state.part = .tree t) {r : CheckedReference}
    (hr : r ∈ stateReferences id state) :
    r.holder = some id ∧
      ∃ name : Text, (name = "Next" ∨ name = "Default") ∧ ReferenceNode state name r.node := by
  have hrule : ∀ {field : Text}, field ≠ statesKey →
      r ∈ (ruleNodes state field).map (fun node => ⟨node, .invalidNext, some id⟩) →
      r.holder = some id ∧ ReferenceNode state "Next" r.node := by
    intro field hfield hmem
    obtain ⟨node, hnode, rfl⟩ := List.mem_map.mp hmem
    exact ⟨rfl, referenceNode_of_mem_ruleNodes hpart hfield hnode⟩
  have hdirect : ∀ {field : Text} {code : DiagnosticCode},
      r ∈ (state.property? field).toList.map (fun node => ⟨node, code, some id⟩) →
      r.holder = some id ∧ ReferenceNode state field r.node := by
    intro field code hmem
    obtain ⟨node, hnode, rfl⟩ := List.mem_map.mp hmem
    exact ⟨rfl, referenceNode_of_property? hpart (Option.mem_toList.mp hnode)⟩
  rcases List.mem_append.mp hr with hr | hnext
  · rcases List.mem_append.mp hr with hcatch | hchoice
    · split at hcatch
      · exact (hrule (by decide) hcatch).imp_right fun hnode => ⟨_, Or.inl rfl, hnode⟩
      · cases hcatch
    · split at hchoice
      · rcases List.mem_append.mp hchoice with hdefault | hchoices
        · exact (hdirect hdefault).imp_right fun hnode => ⟨_, Or.inr rfl, hnode⟩
        · exact (hrule (by decide) hchoices).imp_right fun hnode => ⟨_, Or.inl rfl, hnode⟩
      · cases hchoice
  · exact (hdirect hnext).imp_right fun hnode => ⟨_, Or.inl rfl, hnode⟩

/-- What is offered where a scope names its first state: all its names. -/
theorem candidates_startAt
    {t : Tree} (hpart : f.part = .tree t) (hnode : f.property? "StartAt" = some node)
    (lenient : Bool) :
    node.candidates lenient = Check.namesIn lenient t := by
  obtain ⟨i, hi⟩ := property?_of_tree hpart "StartAt"
  rw [hi] at hnode
  obtain ⟨p, hp, rfl⟩ := Option.map_eq_some_iff.mp hnode
  have hname : (Part.property p).propertyName? = some ("StartAt" : Text) := by
    rw [Part.propertyName?, Part.property?, Option.map_some, Tree.name_of_property? hp]
  rw [candidates, hname, Check.namesIn]
  dsimp only
  rw [if_pos (beq_self_eq_true _)]
  cases hstates : t.property? statesKey with
  | none => simp [parent?, Part.tree?, hstates]
  | some states => simp [parent?, Part.tree?, hstates]

end Climbing

/-- What is offered at a reference that a check looks at: the names of the scope, without the name of
the state that declares the reference. -/
theorem candidates_of_mem_references
    {f : Focus} {t : Tree} (hpart : f.part = .tree t) {r : CheckedReference}
    (hr : r ∈ f.references) (hholder : r.holder ≠ some statesKey) (lenient : Bool) :
    r.node.candidates lenient =
      (Check.namesIn lenient t).filter fun n => decide (r.holder ≠ some n) := by
  rcases List.mem_append.mp hr with hstart | hstate
  · split at hstart
    · obtain ⟨node, hnode, rfl⟩ := List.mem_map.mp hstart
      rw [candidates_startAt hpart (Option.mem_toList.mp hnode)]
      simp
    · cases hstart
  · obtain ⟨⟨id, state⟩, hmem, hr⟩ := List.mem_flatMap.mp hstate
    obtain ⟨states, hstates, hnode⟩ := stateNode_of_mem hpart hmem
    obtain ⟨w, hw⟩ : ∃ w, state.part = .tree w := by
      cases hnode with
      | intro => exact ⟨_, rfl⟩
    obtain ⟨hown, name, hname, hreference⟩ := referenceNode_of_mem_stateReferences hw hr
    rw [hown] at hholder ⊢
    have hid : id ≠ statesKey := fun heq => hholder (by rw [heq])
    rw [candidates_of_referenceNode (Tree.name_of_property? hstates) hnode hid hreference hname,
      Check.namesIn, hstates]
    refine List.filter_congr fun n _ => ?_
    simp

/-! ## The nodes of the scopes -/

section Reaching

variable {f : Focus} {t u : Tree}

/-- Somewhere in a node, or at it, there is a node of the tree. -/
def Reaches (f : Focus) (u : Tree) : Prop :=
  ∃ g, Relation.ReflTransGen Holds f g ∧ g.part = .tree u

theorem Reaches.trans
    (h : Reaches f t) (hrest : ∀ g : Focus, g.part = .tree t → Reaches g u) :
    Reaches f u := by
  obtain ⟨g, hg, hpart⟩ := h
  obtain ⟨k, hk, hu⟩ := hrest g hpart
  exact ⟨k, hg.trans hk, hu⟩

/-- The value of a property stands in the node of its object. -/
theorem reaches_of_property
    (hpart : f.part = .tree t) {properties : List (Property Tree)}
    (hproperties : t.properties? = some properties) {p : Property Tree} (hp : p ∈ properties)
    (hvalue : p.value = some u) :
    Reaches f u := by
  obtain ⟨i, hi⟩ := List.mem_iff_getElem?.mp hp
  have hchild : Holds f ⟨.property p, (.tree t, i) :: f.above⟩ := by
    rw [Holds, children_of_properties hpart hproperties]
    exact List.mem_map.mpr ⟨(p, i), List.mem_zipIdx_iff_getElem?.mpr hi, rfl⟩
  refine ⟨⟨.tree u, (.property p, 1) :: (.tree t, i) :: f.above⟩,
    (Relation.ReflTransGen.single hchild).tail ?_, rfl⟩
  rw [Holds, children]
  simp [Part.children, hvalue]

theorem reaches_of_property?
    (hpart : f.part = .tree t) {name : Text} {p : Property Tree}
    (hp : t.property? name = some p) (hvalue : p.value = some u) :
    Reaches f u := by
  obtain ⟨properties, hproperties, hfind⟩ := Option.bind_eq_some_iff.mp hp
  exact reaches_of_property hpart hproperties (List.mem_of_find?_eq_some hfind) hvalue

theorem reaches_of_item
    (hpart : f.part = .tree t) {items : List Tree} (hitems : t.items? = some items)
    (hu : u ∈ items) :
    Reaches f u := by
  obtain ⟨i, hi⟩ := List.mem_iff_getElem?.mp hu
  refine ⟨⟨.tree u, (.tree t, i) :: f.above⟩, Relation.ReflTransGen.single ?_, rfl⟩
  rw [Holds, children_of_items hpart hitems]
  exact List.mem_map.mpr ⟨(u, i), List.mem_zipIdx_iff_getElem?.mpr hi, rfl⟩

/-- The states of a scope stand in its node. -/
theorem reaches_of_mem_declaredIn
    (hpart : f.part = .tree t) {field : Key × Tree} (hfield : field ∈ Check.declaredIn t) :
    Reaches f field.2 := by
  obtain ⟨properties, hmapping, hdeclared⟩ := Check.mem_declaredIn_iff.mp hfield
  obtain ⟨p, hp, -, hvalue, -⟩ := Check.mem_declared_iff.mp hdeclared
  obtain ⟨states, hstates, hproperties⟩ := Check.mapping?_eq_some_iff.mp hmapping
  obtain ⟨w, hw, hproperties⟩ := Option.bind_eq_some_iff.mp hproperties
  exact (reaches_of_property? hpart hstates hw).trans fun g hg =>
    reaches_of_property hg hproperties hp hvalue

/-- The scopes nested in a state stand in its node. -/
theorem reaches_of_mem_nested
    (hpart : f.part = .tree t) {kind : Option StateKind} {inner : ScopeKind × Tree}
    (hinner : inner ∈ Check.nested kind t) :
    Reaches f inner.2 := by
  unfold Check.nested at hinner
  split at hinner
  · split at hinner
    · next scope hscope =>
        obtain ⟨p, hp, hvalue⟩ := Option.bind_eq_some_iff.mp hscope
        split at hinner
        · rw [List.mem_singleton.mp hinner]
          exact reaches_of_property? hpart hp hvalue
        · cases hinner
    · cases hinner
  · split at hinner
    · next scopes hscopes =>
        obtain ⟨w, hw, hitems⟩ := Option.bind_eq_some_iff.mp hscopes
        obtain ⟨p, hp, hvalue⟩ := Option.bind_eq_some_iff.mp hw
        obtain ⟨scope, hscope, rfl⟩ := List.mem_map.mp hinner
        exact (reaches_of_property? hpart hp hvalue).trans fun g hg =>
          reaches_of_item hg hitems (List.mem_of_mem_filter hscope)
    · cases hinner
  · cases hinner

/-- Every scope that a check enters has a node. -/
theorem reaches_of_mem_entries :
    ∀ {levels : Nat} {kind : ScopeKind} {t : Tree} {e : Check.Entry} {f : Focus},
      f.part = .tree t → e ∈ Check.entries levels kind t → Reaches f e.scope
  | 0, _, _, _, _, _, he => by
      cases he
  | levels + 1, kind, t, e, f, hpart, he => by
      rcases Check.mem_entries_iff.mp he with rfl | ⟨field, hfield, x, hx, inner, hinner, rfl⟩
      · exact ⟨f, Relation.ReflTransGen.refl, hpart⟩
      · have hstate := reaches_of_mem_declaredIn hpart (List.fst_mem_of_mem_zipIdx hfield)
        refine hstate.trans fun g hg => ?_
        refine (reaches_of_mem_nested hg (Check.mem_nested_of_mem_stepsInto hx)).trans fun k hk => ?_
        exact reaches_of_mem_entries (e := inner) hk hinner

end Reaching

end Focus

/-- What is offered at the references of a scope that a check enters.  The scope has a node in the
document.  From any node of it, the references are those that the check looks at there: behind the
route to the scope it reports what is wrong with them, in this order, and nothing else about
references.  Unless the state that declares a reference is called `States`, what is offered are the
names of the scope in their order, without the name of that state.  These names are what the check
accepts, so it has nothing to say about a reference that is set to one of the names offered. -/
theorem offered_names_exact
    {t : Tree} {kind : ScopeKind} {e : Check.Entry} (he : e ∈ Check.entries allLevels kind t)
    (schema : Value) (lenient : Bool) :
    (Focus.root t).Reaches e.scope ∧
      ∀ f : Focus, f.part = .tree e.scope →
        Check.referencesAt e.route (Check.trace schema lenient allLevels kind t) =
          f.references.flatMap
            (Focus.CheckedReference.findings (Check.namesIn lenient e.scope)) ∧
        ∀ r ∈ f.references, r.holder ≠ some statesKey →
          r.node.candidates lenient =
              (Check.namesIn lenient e.scope).filter (fun n => decide (r.holder ≠ some n)) ∧
            ∀ p, r.node.part.property? = some p → ∀ span n,
              (Check.reference (Check.namesIn lenient e.scope) r.code
                (some { p with value := some (.string span n) }) = [] ↔
                  n ∈ Check.namesIn lenient e.scope) ∧
              (n ∈ r.node.candidates lenient →
                Check.reference (Check.namesIn lenient e.scope) r.code
                  (some { p with value := some (.string span n) }) = []) := by
  refine ⟨Focus.reaches_of_mem_entries rfl he, fun f hf => ⟨?_, fun r hr hholder => ?_⟩⟩
  · rw [Check.referencesAt_trace schema lenient he, Focus.findings_references hf]
  · have hoffered := Focus.candidates_of_mem_references hf hr hholder lenient
    refine ⟨hoffered, fun p _ span n => ?_⟩
    have haccepted : Check.reference (Check.namesIn lenient e.scope) r.code
        (some { p with value := some (.string span n) }) = [] ↔
          n ∈ Check.namesIn lenient e.scope := by
      rw [Check.reference_eq_nil_iff]
      simp [Tree.text?]
    refine ⟨haccepted, fun hn => haccepted.mpr ?_⟩
    rw [hoffered] at hn
    exact List.mem_of_mem_filter hn

/-- A text with a state inside of a state of the same name. -/
def nestedReferenceText : Text :=
  "States:
 A:
  Type: Map
  Iterator:
   States:
    A:
     Next: B
    B:
     Next: x
"

/-- The document of that text. -/
def nestedReferenceDocument : Document :=
  match Document.treeOf .yaml nestedReferenceText with
  | .ok (some root) => ⟨nestedReferenceText, .yaml, root, 0⟩
  | _ => ⟨nestedReferenceText, .yaml, none, 0⟩

/-- The inner state is offered the other state of its own scope. -/
theorem offered_names_exact_nestedReference :
    ∃ root, nestedReferenceDocument.root = some root ∧
      ∃ e ∈ Check.entries allLevels .top root, e.route = [⟨0, "A", none⟩] ∧
        Check.namesIn false e.scope = ["A", "B"] ∧
        (Focus.root root).Reaches e.scope ∧
        ∀ f : Focus, f.part = .tree e.scope →
          Check.referencesAt e.route (Check.trace Tables.packaged false allLevels .top root) =
            f.references.flatMap
              (Focus.CheckedReference.findings (Check.namesIn false e.scope)) ∧
          ∀ r ∈ f.references, r.holder ≠ some statesKey →
            r.node.candidates false =
                (Check.namesIn false e.scope).filter (fun n => decide (r.holder ≠ some n)) ∧
              ∀ p, r.node.part.property? = some p → ∀ span n,
                (Check.reference (Check.namesIn false e.scope) r.code
                  (some { p with value := some (.string span n) }) = [] ↔
                    n ∈ Check.namesIn false e.scope) ∧
                (n ∈ r.node.candidates false →
                  Check.reference (Check.namesIn false e.scope) r.code
                    (some { p with value := some (.string span n) }) = []) := by
  have hfacts : (nestedReferenceDocument.root.any fun root =>
      (Check.entries allLevels .top root).any fun e =>
        decide (e.route = [⟨0, "A", none⟩]) &&
          decide (Check.namesIn false e.scope = ["A", "B"])) = true := by
    decide +kernel
  simp only [Option.any_eq_true, List.any_eq_true, Bool.and_eq_true, decide_eq_true_eq] at hfacts
  obtain ⟨root, hroot, e, he, hroute, hnames⟩ := hfacts
  exact ⟨root, hroot, e, he, hroute, hnames, offered_names_exact he Tables.packaged false⟩

end Workflow
