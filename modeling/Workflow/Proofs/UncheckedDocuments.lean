import Workflow.Proofs.FindingRoutes
import Workflow.Proofs.ServiceHistory
import Workflow.Proofs.UncheckedAccess

/-!
# Unchecked access to documents

The check of a document and the completion of state names take parts of nodes that may be of any
kind, and a list of state names from a node that has to be the right property.  Here they are
written so that they fail wherever a part is not there.  They never do, and they answer what the
service answers: whatever stands in a document in the place of a state, a reference, a list of rules
or a nested scope, no question about a document leads to a fault.
-/

namespace Workflow

namespace Unchecked

/-- The properties of a node, which has to be an object. -/
def propertiesOf (t : Option Tree) : Except Fault (List (Property Tree)) :=
  match t.bind Tree.properties? with
  | some properties => .ok properties
  | none => .error (.noFields ((t.map Tree.toValue).getD .null).kind)

/-- The items of a node, which has to be an array. -/
def itemsOf (t : Option Tree) : Except Fault (List Tree) :=
  match t.bind Tree.items? with
  | some items => .ok items
  | none => .error (.noFields ((t.map Tree.toValue).getD .null).kind)

/-! ## The check of a document -/

/-- The references in the rules of an array-valued field: what is wrong with them, and the names of
those that are right. -/
def rules (names : List Text) (field : Text) (state : Tree) :
    Except Fault (List Finding × List Text) :=
  let value := (state.property? field).bind Property.value
  if (value.bind Tree.items?).isSome then do
    let items ← itemsOf value
    let targets := (items.filter Tree.isObject).filterMap fun item => item.property? "Next"
    pure (targets.flatMap fun p => Check.reference names .invalidNext (some p),
      targets.filterMap fun p =>
        if (Check.reference names .invalidNext (some p)).isEmpty then Check.textIn (some p)
        else none)
  else pure ([], [])

/-- What the Catch rules contribute. -/
def caught (names : List Text) (state : Tree) : Except Fault (List Finding × List Text) :=
  if (Check.kindOf state).any StateKind.handlesErrors then rules names "Catch" state
  else pure ([], [])

/-- What the `Default` and the rules of a Choice state contribute. -/
def chosen (names : List Text) (state : Tree) : Except Fault (List Finding × List Text) :=
  if Check.kindOf state == some .choice then do
    let default := state.property? "Default"
    let wrong := Check.reference names .invalidDefault default
    let (choices, targets) ← rules names "Choices" state
    pure (wrong ++ choices,
      (if wrong.isEmpty then (Check.textIn default).toList else []) ++ targets)
  else pure ([], [])

/-- The scopes nested in a state, with their kinds. -/
def nested (kind : Option StateKind) (state : Tree) : Except Fault (List (ScopeKind × Tree)) :=
  match kind with
  | some .map => do
    let field ← State.processorField? state.toValue
    pure (match (state.property? field).bind Property.value with
      | some scope => if scope.isObject then [(.map, scope)] else []
      | none => [])
  | some .parallel =>
    let value := (state.property? "Branches").bind Property.value
    if (value.bind Tree.items?).isSome then do
      let scopes ← itemsOf value
      pure ((scopes.filter Tree.isObject).map fun scope => (.parallel, scope))
    else pure []
  | _ => pure []

/-- The findings of a kind that owns scopes or has fields of its own. -/
def kindFindings (inner : List Finding) (state : Tree) : Except Fault (List Finding) :=
  match Check.kindOf state with
  | some .map => do
    let field ← State.selectorField? state.toValue
    pure (propertyFindings (state.property? field) ++ inner)
  | some .parallel => pure inner
  | some .fail => pure (failPathFindings state)
  | _ => pure []

/-- Checks one state. -/
def state (schema : Value) (names : List Text) (inner : List Finding) (t : Tree) :
    Except Fault Check.StateReport := do
  let fields ← Tables.stateFindings schema (some t)
  let (wrongCatches, caught) ← caught names t
  let own ← kindFindings inner t
  let (wrongChoices, chosen) ← chosen names t
  let next := t.property? "Next"
  pure
    { findings := fields ++ (Check.templates t).1 ++ wrongCatches ++ (Check.templates t).2 ++ own ++
        wrongChoices ++ Check.reference names .invalidNext next
      reached := (Check.textIn next).toList ++ caught ++ chosen
      isTerminal := Check.ends t }

/-- The findings in a scope and in the scopes nested in it, down to a number of levels. -/
def scope (schema : Value) (lenient : Bool) : Nat → ScopeKind → Tree → Except Fault (List Finding)
  | 0, _, _ => pure []
  | levels + 1, kind, tree => do
    let properties ← propertiesOf (some tree)
    let fields ← Check.scopeFields schema kind properties
    match tree.property? statesKey with
    | none => pure fields
    | some states => do
      let names ← Part.declaredNames? lenient (.property states)
      let start := tree.property? "StartAt"
      let wrongStart := Check.reference names .invalidStartAt start
      if states.value.any Tree.isObject then do
        let properties ← propertiesOf states.value
        let reports ← (Check.declared properties).mapM fun (_, t) => do
          let scopes ← nested (Check.kindOf t) t
          let inner ← scopes.mapM fun (k, s) => scope schema lenient levels k s
          state schema names inner.flatten t
        pure (fields ++ wrongStart ++ reports.flatMap Check.StateReport.findings ++
          Check.missingEnd states.key reports ++
          Check.unreached (Check.textIn start).toList (Check.declared properties) reports)
      else pure (fields ++ wrongStart)

/-! ## The completion of state names -/

/-- The state names that fit the value of a node, which has to be a property. -/
def candidates (lenient : Bool) (f : Focus) : Except Fault (List Text) :=
  match f.part.propertyName? with
  | none => .error (.noFields f.part.toValue.kind)
  | some name =>
    if name == "StartAt" then
      match (f.parent?.bind fun g => g.part.tree?).bind (Tree.property? · statesKey) with
      | some states => Part.declaredNames? lenient (.property states)
      | none => pure []
    else if name == "Next" || name == "Default" then
      match f.closest? [statesKey] with
      | some g =>
        (Part.declaredNames? lenient g.part).map fun names =>
          names.filter fun n => f.holderName? != some n
      | none => pure []
    else pure []

/-- The state names that fit a place. -/
def stateNames (lenient : Bool) (f : Focus) : Except Fault (List Text) :=
  match f.part with
  | .property p => if p.colon.isSome then candidates lenient f else pure []
  | .tree (.string _ _) =>
    match f.parent? with
    | some g => if g.part.property?.isSome then candidates lenient g else pure []
    | none => pure []
  | _ => pure []

/-! ## The service -/

/-- Makes the snapshot belong to a document. -/
def refresh (s : Service) (d : OpenDocument) : Except Fault Service := do
  let key := (d.identity, d.document.version)
  if s.resolved == some key then pure s
  else
    let entries ← ofWorkflow d.document.workflow
    pure { s with snapshot := ⟨d.document.workflow, entries⟩, resolved := some key }

/-- The diagnostics of a document. -/
def validate (s : Service) (d : OpenDocument) : Except Fault (List Diagnostic) :=
  match d.document.root with
  | some t =>
    if t.isObject then do
      let s ← refresh s d
      let findings ← scope s.schema (s.lenientFor d.document) allLevels .top t
      d.document.report Tables.messages findings
    else pure []
  | none => pure []

/-- The variables in scope at a state that is referred to by an id. -/
def variableScopeOf (s : Service) (d : OpenDocument) (target : Text) (current : Option Text) :
    Except Fault VariableScope := do
  let s ← refresh s d
  variableScope s.snapshot.workflow s.snapshot.entries target current

/-- The state names that fit an offset. -/
def stateNamesAt (s : Service) (d : Document) (offset : Int) : Except Fault (List Text) :=
  match Focus.at? d.root offset with
  | some f => stateNames (s.lenientFor d) f
  | none => pure []

/-! ## Checks that are safe -/

theorem propertiesOf_eq
    {t : Option Tree} {properties : List (Property Tree)}
    (h : t.bind Tree.properties? = some properties) :
    propertiesOf t = .ok properties := by
  rw [propertiesOf, h]

theorem itemsOf_eq
    {t : Option Tree} {items : List Tree} (h : t.bind Tree.items? = some items) :
    itemsOf t = .ok items := by
  rw [itemsOf, h]

theorem processorField?_eq
    {v : Value} (h : v.isObject = true) :
    State.processorField? v = .ok (State.processorField v) := by
  rw [State.processorField?, State.processorField, mentions_eq h, mentions_eq h]
  cases v.get? "ItemProcessor" with
  | some scope => rfl
  | none => cases v.get? "Iterator" <;> rfl

theorem selectorField?_eq
    {v : Value} (h : v.isObject = true) :
    State.selectorField? v = .ok (State.selectorField v) := by
  rw [State.selectorField?, State.selectorField, mentions_eq h]
  rfl

/-- The property that declares the states of a scope is of the right name. -/
theorem declaredNames?_eq
    {tree : Tree} {states : Property Tree} (h : tree.property? statesKey = some states)
    (lenient : Bool) :
    Part.declaredNames? lenient (.property states) = .ok (declaredNames lenient states) := by
  obtain ⟨properties, -, hfind⟩ := Option.bind_eq_some_iff.mp h
  have hname := List.find?_some hfind
  unfold Part.declaredNames? Part.property?
  dsimp only
  rw [if_pos hname]

theorem rules_eq
    (names : List Text) (field : Text) (state : Tree) :
    rules names field state = .ok (Check.rules names field state) := by
  rw [rules, Check.rules]
  dsimp only
  cases hitems : ((state.property? field).bind Property.value).bind Tree.items? with
  | none => rfl
  | some items =>
      have htargets : (items.filter Tree.isObject).filterMap (fun item => item.property? "Next") =
          items.filterMap fun item => item.property? "Next" := by
        rw [List.filterMap_filter]
        refine List.filterMap_congr fun item _ => ?_
        cases hobject : item.isObject with
        | true => rfl
        | false => exact (Tree.property?_of_not_object hobject "Next").symm
      rw [Option.isSome_some, if_pos rfl, itemsOf_eq hitems, ok_bind, htargets]
      rfl

theorem caught_eq
    (names : List Text) (state : Tree) :
    caught names state = .ok (Check.caught names state) := by
  rw [caught, Check.caught]
  split
  · exact rules_eq names "Catch" state
  · rfl

theorem chosen_eq
    (names : List Text) (state : Tree) :
    chosen names state = .ok (Check.chosen names state) := by
  rw [chosen, Check.chosen]
  split
  · rw [rules_eq]
    rfl
  · rfl

section State

variable {t : Tree} (ht : t.isObject = true)

include ht

theorem nested_eq
    (kind : Option StateKind) :
    nested kind t = .ok (Check.nested kind t) := by
  have hvalue : t.toValue.isObject = true := by rw [Tree.isObject_toValue, ht]
  cases kind with
  | none => rfl
  | some kind =>
      cases kind with
      | map =>
          rw [nested, processorField?_eq hvalue]
          rfl
      | parallel =>
          rw [nested, Check.nested]
          cases hitems : ((t.property? "Branches").bind Property.value).bind Tree.items? with
          | none => rfl
          | some scopes =>
              rw [Option.isSome_some, if_pos rfl, itemsOf_eq hitems]
              rfl
      | _ => rfl

theorem kindFindings_eq
    (inner : List Finding) :
    kindFindings inner t = .ok (Check.kindFindings inner t) := by
  have hvalue : t.toValue.isObject = true := by rw [Tree.isObject_toValue, ht]
  rw [kindFindings, Check.kindFindings]
  cases Check.kindOf t with
  | none => rfl
  | some kind =>
      cases kind with
      | map =>
          dsimp only
          rw [selectorField?_eq hvalue]
          rfl
      | _ => rfl

theorem state_eq
    (schema : Value) (names : List Text) (inner : List Finding) :
    state schema names inner t = Check.state schema names inner t := by
  rw [state, Check.state]
  simp only [caught_eq, kindFindings_eq ht, chosen_eq, ok_bind]
  cases Tables.stateFindings schema (some t) with
  | error fault => rfl
  | ok fields => rfl

end State

/-- The check of a scope, whatever tables it is run with. -/
theorem scope_eq
    (schema : Value) (lenient : Bool) :
    ∀ (levels : Nat) (kind : ScopeKind) {tree : Tree}, tree.isObject = true →
      scope schema lenient levels kind tree = Check.scope schema lenient levels kind tree
  | 0, _, _, _ => rfl
  | levels + 1, kind, tree, htree => by
      obtain ⟨properties, hproperties⟩ := Option.isSome_iff_exists.mp htree
      rw [scope, Check.scope, propertiesOf_eq (t := some tree) hproperties, ok_bind, hproperties,
        Option.getD_some]
      refine bind_congr fun fields => ?_
      cases hstates : tree.property? statesKey with
      | none => rfl
      | some states =>
          dsimp only
          rw [declaredNames?_eq hstates, ok_bind]
          have hobject : states.value.any Tree.isObject =
              (states.value.bind Tree.properties?).isSome := by
            cases states.value <;> rfl
          rw [hobject]
          cases hmapping : states.value.bind Tree.properties? with
          | none => rfl
          | some declarations =>
              rw [Option.isSome_some, if_pos rfl, propertiesOf_eq hmapping, ok_bind]
              refine congrArg (· >>= _) (mapM_congr fun field hfield => ?_)
              obtain ⟨-, -, -, -, hfield⟩ := Check.mem_declared_iff.mp hfield
              have hinner : ((Check.nested (Check.kindOf field.2) field.2).mapM fun inner =>
                  scope schema lenient levels inner.1 inner.2) =
                  (Check.nested (Check.kindOf field.2) field.2).mapM fun inner =>
                    Check.scope schema lenient levels inner.1 inner.2 :=
                mapM_congr fun inner hmem =>
                  scope_eq schema lenient levels inner.1 (Check.isObject_of_mem_nested hmem)
              rw [nested_eq hfield, ok_bind, hinner]
              exact bind_congr fun found => state_eq hfield schema _ _

/-! ## Completions that are safe -/

/-- The property that a place looks for outward has one of the names it looks for. -/
theorem propertyName?_of_closestFrom
    {names : List Text} {g : Focus} :
    ∀ {part : Part} {above : List (Part × Nat)}, Focus.closestFrom names part above = some g →
      g.part.propertyName?.any names.contains = true
  | part, [], h => by
      rw [Focus.closestFrom] at h
      split at h
      · next hname =>
          cases h
          exact hname
      · cases h
  | part, (outer, i) :: above, h => by
      rw [Focus.closestFrom] at h
      split at h
      · next hname =>
          cases h
          exact hname
      · exact propertyName?_of_closestFrom h

theorem candidates_eq
    (lenient : Bool) {f : Focus} (hf : f.part.property?.isSome = true) :
    candidates lenient f = .ok (f.candidates lenient) := by
  obtain ⟨p, hp⟩ := Option.isSome_iff_exists.mp hf
  rw [candidates, Focus.candidates, Part.propertyName?, hp, Option.map_some]
  dsimp only
  split
  · cases hstates : (f.parent?.bind fun g => g.part.tree?).bind (Tree.property? · statesKey) with
    | none => rfl
    | some states =>
        obtain ⟨tree, -, hproperty⟩ := Option.bind_eq_some_iff.mp hstates
        exact declaredNames?_eq hproperty lenient
  · split
    · cases hclosest : f.closest? [statesKey] with
      | none => rfl
      | some g =>
          obtain ⟨name, hname, hmem⟩ := (Option.any_eq_true _ _).mp
            (propertyName?_of_closestFrom hclosest)
          obtain ⟨q, hq, rfl⟩ := Option.map_eq_some_iff.mp hname
          have hkey : q.key.name = statesKey := by simpa using hmem
          dsimp only
          unfold Part.declaredNames?
          rw [hq, Option.bind_some, hq]
          dsimp only
          rw [if_pos (beq_iff_eq.mpr hkey)]
          rfl
    · rfl

/-- A node that is no property has no candidates: the question itself would be a fault. -/
example : candidates false (Focus.root (.null ⟨0, 4⟩)) = .error (.noFields .null) := rfl

theorem stateNames_eq
    (lenient : Bool) (f : Focus) :
    stateNames lenient f = .ok (f.stateNames lenient) := by
  unfold stateNames Focus.stateNames
  cases hpart : f.part with
  | property p =>
      dsimp only
      split
      · exact candidates_eq lenient (by rw [hpart]; rfl)
      · rfl
  | key k => rfl
  | tree t =>
      cases t with
      | string span text =>
          dsimp only
          cases f.parent? with
          | none => rfl
          | some g =>
              dsimp only
              split
              · next hproperty => exact candidates_eq lenient hproperty
              · rfl
      | _ => rfl

/-! ## The service never faults -/

theorem refresh_eq
    (s : Service) (d : OpenDocument) :
    refresh s d = .ok (s.refresh d) := by
  rw [refresh, Service.refresh]
  split
  · rfl
  · rw [ofWorkflow_eq]
    rfl

end Unchecked

/-- No question about a document leads to a fault.  Whatever a service has answered before, whatever
the document is and whatever is asked, the check with the packaged tables, the variables in scope at
a state with an id and the state names at an offset are answered, with accessors that take fields
and parts without looking, and the answers are those of the service. -/
theorem Service.never_faults
    (lenient : Bool) (snapshot : Snapshot) (resolved : Option (Nat × Int)) (d : OpenDocument)
    (target : Text) (current : Option Text) (offset : Int) :
    let s : Service := ⟨lenient, Tables.packaged, snapshot, resolved⟩
    (∃ ds, Unchecked.validate s d = .ok ds ∧ (s.validate d).2 = .ok ds) ∧
      (∃ scope, Unchecked.variableScopeOf s d target current = .ok scope ∧
        (s.variableScope d (.id target) (current.map .id)).2 = .ok scope) ∧
      Unchecked.stateNamesAt s d.document offset = .ok (s.stateNamesAt d.document offset) := by
  intro s
  refine ⟨?_, ?_, ?_⟩
  · rw [Unchecked.validate, Service.validate]
    cases hroot : d.document.root with
    | none => exact ⟨[], rfl, rfl⟩
    | some t =>
        dsimp only
        cases hobject : t.isObject with
        | false => exact ⟨[], rfl, rfl⟩
        | true =>
            obtain ⟨hsetting, hschema⟩ := s.refresh_settings d
            have hlenient : (s.refresh d).lenientFor d.document = s.lenientFor d.document := by
              rw [lenientFor, hsetting, lenientFor]
            have hdelivers := d.document.check_delivers
              ⟨Tables.packaged, Tables.messages, s.lenientFor d.document⟩ .top (some t)
            obtain ⟨ds, hds⟩ := hdelivers.succeeds ⟨Tables.packaged_sound, rfl⟩
            rw [if_pos rfl, if_pos rfl, Unchecked.refresh_eq, Unchecked.ok_bind,
              Unchecked.scope_eq _ _ _ _ hobject, hschema, hlenient]
            have hrun := hds
            rw [Document.check, Option.some_or] at hrun
            dsimp only at hrun
            rw [Document.checkScope, if_pos hobject] at hrun
            exact ⟨ds, hrun, hds⟩
  · rw [Unchecked.variableScopeOf, Unchecked.refresh_eq, Unchecked.ok_bind]
    exact Unchecked.variableScope_eq _ _ target current
  · rw [Unchecked.stateNamesAt, Service.stateNamesAt]
    cases Focus.at? d.document.root offset with
    | none => rfl
    | some f => exact Unchecked.stateNames_eq _ f

end Workflow
