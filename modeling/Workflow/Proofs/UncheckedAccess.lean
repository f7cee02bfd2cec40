import Workflow.Proofs.BackwardWalk
import Workflow.Proofs.EnclosingOwners
import Workflow.Proofs.FieldFindings
import Workflow.Proofs.StateOrder
import Workflow.Proofs.VisitedScopes
import Workflow.Scope.Resolve

/-!
# Unchecked access to values

The accessors that read a workflow take what they need without looking: a field of something that
may be no object, an element of something that may be no array, a table entry under a key that may
be an array.  Only the questions asked beforehand (is it a Map state, has the scope states) make
this safe.  In this module the traversals of a workflow are written with such accessors, so that
each of them can fail wherever it takes something, and they are shown to answer what the traversals
of the other modules answer, whatever the values are.
-/

namespace Workflow

namespace Unchecked

/-- The value under a name, which has to be there. -/
def index (v : Value) (name : Text) : Except Fault Value :=
  match v.get? name with
  | some w => .ok w
  | none => .error .notNamed

/-- The fields of a value, which has to be an object. -/
def fields (v : Value) : Except Fault Fields :=
  match v.fields? with
  | some fields => .ok fields
  | none => .error (.noFields v.kind)

/-- The elements of a value, which has to have some. -/
def elements (v : Value) : Except Fault (List Value) :=
  match v.elements? with
  | some elements => .ok elements
  | none => .error (.notASequence v.kind)

/-- The value under a segment in an object, null when there is none.  The segment has to be a
possible key. -/
def entry (v : Value) (s : Segment) : Except Fault Value :=
  if s.isKey then
    match s with
    | .name id => State.fieldOf v id
    | _ => (fields v).map fun _ => .null
  else .error (.notAKey s.toValue.kind)

/-- The states of a scope, which has to have some. -/
def declared (scope : Value) : Except Fault Fields := do
  let states ← index scope "States"
  fields states

/-- The last segment of a path, which has to be there, as an id. -/
def lastId (p : Path) : Except Fault Text :=
  match p.getLast?.bind Segment.name? with
  | some id => .ok id
  | none => .error .notNamed

/-! ## Forward edges -/

/-- The `Next` values of the object items of an array-valued field. -/
def ruleTargets (state : Value) (field : Text) : Except Fault (List Value) := do
  let rules ← State.fieldOf state field
  if rules.isArray then
    let rules ← elements rules
    (rules.filter Value.isObject).mapM fun rule => State.fieldOf rule "Next"
  else pure []

/-- The values in the places of targets; only objects have any. -/
def targetValues (state : Value) : Except Fault (List Value) :=
  if state.isObject then do
    let next ← State.fieldOf state "Next"
    let choices ←
      if State.isKind state .choice then do
        let rules ← ruleTargets state "Choices"
        let default ← State.fieldOf state "Default"
        pure (rules ++ [default])
      else pure []
    let catches ← if State.handlesErrors state then ruleTargets state "Catch" else pure []
    pure ([next] ++ choices ++ catches)
  else pure []

/-- Every id that a state can hand control to. -/
def nextIds (state : Value) : Except Fault (List Text) :=
  (targetValues state).map fun targets => State.keepFirst (targets.filterMap Value.text?)

/-! ## Visits -/

/-- The scopes that a state directly owns, with their paths. -/
def nestedScopes (state : Value) (path : Path) : Except Fault (List (Value × Path)) :=
  match State.kind? state with
  | some .map => do
    let scope ← State.processor? state
    pure (if scope.isObject then [(scope, path)] else [])
  | some .parallel => do
    let branches ← State.fieldOf state "Branches"
    if branches.isArray then
      let scopes ← elements branches
      pure (scopes.zipIdx.filterMap fun (scope, i) =>
        if scope.isObject then some (scope, path ++ [.index i]) else none)
    else pure []
  | _ => pure []

/-- The states of a scope and of all scopes nested in it, down to a number of levels. -/
def preorder : Nat → Value → Path → Except Fault (List Visit)
  | 0, _, _ => pure []
  | levels + 1, scope, path =>
    if (State.declared? scope).isSome then do
      let states ← declared scope
      let visits ← states.mapM fun (id, state) => do
        let here := path ++ [.name id]
        let scopes ← nestedScopes state here
        let inner ← scopes.mapM fun (scope, path) => preorder levels scope path
        pure (⟨id, state, scope, here⟩ :: inner.flatten)
      pure visits.flatten
    else pure []

/-- Adds an edge to the entry of its target; the path has to be a possible key. -/
def addEdge (entries : Predecessors) (scope : Path) (source target : Text) :
    Except Fault Predecessors :=
  match scope.find? fun s => !s.isKey with
  | some s => .error (.notAKey s.toValue.kind)
  | none => .ok (entries.addEdge scope source target)

/-- Adds the edges of one visited state. -/
def addVisit (entries : Predecessors) (visit : Visit) : Except Fault Predecessors := do
  let targets ← nextIds visit.state
  targets.foldlM (fun entries target => addEdge entries visit.path.dropLast visit.id target) entries

/-- The reverse adjacency of every scope of a workflow. -/
def ofWorkflow (root : Value) : Except Fault Predecessors := do
  let visits ← preorder allLevels root []
  visits.foldlM addVisit []

/-! ## Searches -/

/-- The first state with an id, searching a number of levels of nested scopes. -/
def searchId (id : Text) : Nat → Value → Path → Except Fault (Option Address)
  | 0, _, _ => pure none
  | levels + 1, scope, path =>
    if (State.declared? scope).isSome then do
      let states ← declared scope
      if states.has id then do
        let state ← index (.obj states) id
        pure (some ⟨state, scope, path ++ [.name id], path⟩)
      else
        states.findSomeM? fun (child, state) => do
          let scopes ← nestedScopes state (path ++ [.name child])
          scopes.findSomeM? fun (inner, innerPath) => do
            let found ← searchId id levels inner innerPath
            pure (found.filter Address.isPresent)
    else pure none

/-- The branch of a Parallel state that a segment selects, if it is an index of one. -/
def branchAt (owner : Value) (s : Segment) : Except Fault (Option Value) :=
  match s.index? with
  | some i => do
    let branches ← State.fieldOf owner "Branches"
    if branches.isArray && decide (0 ≤ i) then
      let scopes ← elements branches
      pure scopes[i.toNat]?
    else pure none
  | none => pure none

/-- The scope that a list of owners leads to. -/
def ownedScope : Value → Path → Except Fault (Option Value)
  | scope, [] => pure (some scope)
  | scope, s :: rest =>
    if (State.declared? scope).isSome then do
      let states ← index scope "States"
      let owner ← entry states s
      match State.kind? owner with
      | some .map => do
        let inner ← State.processor? owner
        ownedScope inner rest
      | some .parallel =>
        match rest with
        | [] => pure none
        | t :: rest => do
          match ← branchAt owner t with
          | some inner => ownedScope inner rest
          | none => pure none
      | _ => pure none
    else pure none

/-- The state at a path. -/
def findPath (root : Value) (path : Path) : Except Fault (Option Address) :=
  match path.getLast? with
  | some (.name id) =>
    if maxPathLength < path.length then pure none
    else do
      match ← ownedScope root path.dropLast with
      | none => pure none
      | some scope =>
        if (State.declared? scope).isSome then do
          let states ← declared scope
          if states.has id then do
            let state ← index (.obj states) id
            pure (some ⟨state, scope, path, path.dropLast⟩)
          else pure none
        else pure none
  | _ => pure none

/-! ## Variables -/

/-- The Assign block of an object when one of its fields names the successor. -/
def blockToward (v : Value) (field : Text) (successor : Value) : Except Fault (Option Value) := do
  let target ← State.fieldOf v field
  let block ← State.fieldOf v "Assign"
  if block.truthy && target.same successor then (index v "Assign").map some else pure none

/-- The blocks of the rules in an array-valued field that route to the successor. -/
def ruleBlocks (state : Value) (field : Text) (successor : Value) :
    Except Fault (List Value) := do
  let rules ← State.fieldOf state field
  if rules.isArray then
    let rules ← index state field
    let rules ← elements rules
    let blocks ← (rules.filter Value.isObject).mapM fun rule => blockToward rule "Next" successor
    pure (blocks.filterMap id)
  else pure []

/-- The Assign blocks that take effect on the edge to a successor. -/
def edgeBlocks (state : Value) (successor : Value) : Except Fault (List Value) := do
  let catches ← if State.handlesErrors state then ruleBlocks state "Catch" successor else pure []
  let own ←
    if State.isKind state .choice then do
      let choices ← ruleBlocks state "Choices" successor
      let default ← blockToward state "Default" successor
      pure (choices ++ default.toList)
    else (blockToward state "Next" successor).map Option.toList
  pure (catches ++ own)

/-- The key tree of the variables that a state binds on the edge to a successor. -/
def edgeVariables (state : Value) (successor : Value) : Except Fault Value :=
  (edgeBlocks state successor).map fun blocks =>
    blocks.foldl (fun tree block => KeyTree.merge tree (State.assignKeys block)) KeyTree.empty

section Walk

variable (walk : Walk)

/-- The edges that lead to a state, last one first; the path of the scope has to be a key. -/
def edgesTo (target : Text) : Except Fault (List ScopeEdge) :=
  (walk.entries.sources? walk.path (.str target)).map fun sources =>
    sources.reverse.map fun source => (source, target)

/-- The variables bound on an edge. -/
def bound (edge : ScopeEdge) : Except Fault Value :=
  if walk.silent == some edge.1 then pure KeyTree.empty
  else edgeVariables ((walk.states.get? edge.1).getD .null) (.str edge.2)

/-- Follows the pending edges, newest first, and merges what they bind. -/
def explore : Nat → List ScopeEdge → List ScopeEdge → Value → Except Fault Value
  | 0, _, _, tree => pure tree
  | budget + 1, pending, seen, tree =>
    match pending.dropWhile (walk.isStale seen) with
    | [] => pure tree
    | edge :: rest => do
      let found ← bound walk edge
      let before ← edgesTo walk edge.1
      explore budget (before ++ rest) (edge :: seen) (KeyTree.merge tree found)

/-- The variables bound on the way to a state. -/
def variablesTo (target : Text) : Except Fault Value := do
  let first ← edgesTo walk target
  explore walk walk.entries.edgeCount first [] KeyTree.empty

end Walk

/-- Whether an address hides everything outside of its nested scopes. -/
def isolates (a : Address) (fromInside : Bool) : Except Fault Bool :=
  if fromInside && State.isKind a.state .map then State.isDistributed? a.state else pure false

/-- The variables in scope at an address. -/
def scopeAt (root : Value) (entries : Predecessors) :
    Nat → Address → Bool → Except Fault VariableScope
  | 0, _, _ => pure .none
  | levels + 1, a, fromInside => do
    let id ← lastId a.path
    let isolated ← isolates a fromInside
    if isolated then pure .none
    else
      let siblings ← declared a.parent
      let walk : Walk := ⟨siblings, entries, a.parentPath, if fromInside then some id else none⟩
      let own ← variablesTo walk id
      match ← findPath root a.ownerPath with
      | some owner =>
        if owner.isPresent then
          let above ← scopeAt root entries levels owner true
          pure ⟨own, KeyTree.merge above.own above.outer⟩
        else pure ⟨own, KeyTree.empty⟩
      | none => pure ⟨own, KeyTree.empty⟩

/-- The variables in scope when the first state with an id starts, seen from the first state with
another id or from itself. -/
def variableScope (root : Value) (entries : Predecessors) (target : Text) (current : Option Text) :
    Except Fault VariableScope := do
  let goal ← searchId target allLevels root []
  let start ← match current with
    | some id => searchId id allLevels root []
    | none => pure goal
  match goal, start with
  | some goal, some start =>
    if goal.isPresent && start.isPresent then
      scopeAt root entries start.path.length start (!Path.same start.path goal.path)
    else pure .none
  | _, _ => pure .none

/-! ## Access that is safe -/

section Safe

variable {v w : Value} {name : Text}

theorem index_eq
    (h : v.get? name = some w) :
    index v name = .ok w := by
  rw [index, h]

theorem elements_eq
    {items : List Value} (h : v.items? = some items) :
    elements v = .ok items := by
  cases v with
  | arr others =>
      cases h
      rfl
  | _ => cases h

theorem fieldOf_eq
    (h : v.isObject = true) (name : Text) :
    State.fieldOf v name = .ok (v.get name) := by
  cases v with
  | obj fields => rfl
  | _ => cases h

/-- Only an object is a state of some kind. -/
theorem isObject_of_kind?
    {kind : StateKind} (h : State.kind? v = some kind) :
    v.isObject = true := by
  cases v with
  | obj fields => rfl
  | _ => cases h

theorem isObject_of_kindHas
    {property : StateKind → Bool} (h : State.kindHas v property = true) :
    v.isObject = true := by
  obtain ⟨kind, hkind, -⟩ := (Option.any_eq_true _ _).mp h
  exact isObject_of_kind? hkind

theorem mentions_eq
    (h : v.isObject = true) (name : Text) :
    State.mentions v name = .ok (v.get? name).isSome := by
  cases v with
  | obj fields => exact congrArg Except.ok (Fields.isSome_get? fields name).symm
  | _ => cases h

theorem processor?_eq
    (h : v.isObject = true) :
    State.processor? v = .ok (State.processor v) := by
  unfold State.processor? State.preferField State.processor
  rw [mentions_eq h]
  cases hget : v.get? "ItemProcessor" with
  | none => exact fieldOf_eq h "Iterator"
  | some scope => simp [h, Value.get, hget]

theorem isDistributed?_eq
    (h : v.isObject = true) :
    State.isDistributed? v = .ok (State.isDistributed v) := by
  rw [State.isDistributed?, State.mode?, processor?_eq h]
  rfl

/-- A scope with states has a mapping of them. -/
theorem declared_eq
    {states : Fields} (h : State.declared? v = some states) :
    declared v = .ok states := by
  obtain ⟨mapping, hmapping, hfields⟩ := Option.bind_eq_some_iff.mp h
  rw [declared, index_eq hmapping]
  simp [fields, hfields, bind, Except.bind]

end Safe

/-! ## Traversals -/

theorem ok_bind
    {α β : Type} (a : α) (f : α → Except Fault β) :
    (Except.ok a >>= f) = f a := rfl

theorem ok_map
    {α β : Type} (a : α) (f : α → β) :
    (Except.ok a : Except Fault α).map f = .ok (f a) := rfl

theorem pure_eq_ok
    {α : Type} (a : α) :
    (pure a : Except Fault α) = .ok a := rfl

theorem items?_get
    (v : Value) (name : Text) :
    (v.get? name).bind Value.items? = (v.get name).items? := by
  rw [Value.get]
  cases v.get? name <;> rfl

section States

variable {state : Value} (hstate : state.isObject = true)

include hstate

theorem ruleTargets_eq
    (field : Text) :
    ruleTargets state field = .ok (State.ruleTargets state field) := by
  rw [ruleTargets, fieldOf_eq hstate, ok_bind, State.ruleTargets, items?_get, Value.isArray]
  cases hitems : (state.get field).items? with
  | none => rfl
  | some rules =>
      have htargets : (rules.filter Value.isObject).mapM (fun rule => State.fieldOf rule "Next") =
          .ok ((rules.filter Value.isObject).map fun rule => rule.get "Next") :=
        mapM_eq_ok_map fun rule hrule => fieldOf_eq (List.mem_filter.mp hrule).2 "Next"
      rw [Option.isSome_some, if_pos rfl, elements_eq hitems, ok_bind, htargets,
        ← List.filterMap_eq_map, List.filterMap_filter]
      rfl

theorem targetValues_eq :
    targetValues state = .ok (State.targetValues state) := by
  rw [targetValues, if_pos hstate, State.targetValues]
  simp only [fieldOf_eq hstate, ruleTargets_eq hstate, ok_bind, pure_eq_ok]
  cases State.isKind state .choice <;> cases State.handlesErrors state <;> rfl

end States

/-- The successors of a value of any shape. -/
theorem nextIds_eq
    (state : Value) :
    nextIds state = .ok (State.nextIds state) := by
  cases hstate : state.isObject with
  | true => rw [nextIds, targetValues_eq hstate, ok_map, State.nextIds]
  | false =>
      rw [nextIds, targetValues, hstate]
      cases state with
      | obj fields => cases hstate
      | _ => rfl

/-- The scopes nested in a value of any shape. -/
theorem nestedScopes_eq
    (state : Value) (path : Path) :
    nestedScopes state path = .ok (State.nestedScopes state path) := by
  unfold nestedScopes State.nestedScopes
  cases hkind : State.kind? state with
  | none => rfl
  | some kind =>
      have hstate := isObject_of_kind? hkind
      cases kind with
      | map =>
          dsimp only
          rw [processor?_eq hstate]
          rfl
      | parallel =>
          dsimp only
          rw [fieldOf_eq hstate, ok_bind, State.branches?, items?_get, Value.isArray]
          cases hitems : (state.get "Branches").items? with
          | none => rfl
          | some scopes =>
              rw [Option.isSome_some, if_pos rfl, elements_eq hitems]
              rfl
      | _ => rfl

theorem preorder_eq :
    ∀ (levels : Nat) (scope : Value) (path : Path),
      preorder levels scope path = .ok (Workflow.preorder levels scope path)
  | 0, _, _ => rfl
  | levels + 1, scope, path => by
      rw [preorder, Workflow.preorder]
      cases hstates : State.declared? scope with
      | none => rfl
      | some states =>
          rw [Option.isSome_some, if_pos rfl, declared_eq hstates, ok_bind,
            mapM_eq_ok_map (g := fun field => ⟨field.1, field.2, scope, path ++ [.name field.1]⟩ ::
              (State.nestedScopes field.2 (path ++ [.name field.1])).flatMap fun nested =>
                Workflow.preorder levels nested.1 nested.2)]
          · rfl
          · intro field _
            dsimp only
            rw [nestedScopes_eq, ok_bind, mapM_eq_ok_map fun nested _ =>
              preorder_eq levels nested.1 nested.2]
            rfl

theorem isKey_concat
    {path : Path} {s : Segment} (hpath : ∀ t ∈ path, t.isKey = true) (hs : s.isKey = true) :
    ∀ t ∈ path ++ [s], t.isKey = true := by
  intro t ht
  rcases List.mem_append.mp ht with ht | ht
  · exact hpath t ht
  · rw [List.mem_singleton.mp ht]
    exact hs

theorem isKey_of_mem_nestedScopes
    {state inner : Value} {here p : Path} (hhere : ∀ s ∈ here, s.isKey = true)
    (h : (inner, p) ∈ State.nestedScopes state here) :
    ∀ s ∈ p, s.isKey = true := by
  obtain ⟨-, ⟨-, -, rfl⟩ | ⟨-, -, i, -, -, rfl⟩⟩ := State.mem_nestedScopes_iff.mp h
  · exact hhere
  · exact isKey_concat hhere rfl

/-- Names and indexes are all that a visit puts on a path. -/
theorem isKey_of_mem_preorder
    {v : Visit} :
    ∀ {levels : Nat} {scope : Value} {path : Path}, (∀ s ∈ path, s.isKey = true) →
      v ∈ Workflow.preorder levels scope path → ∀ s ∈ v.path, s.isKey = true
  | 0, _, _, _, hv => by
      cases hv
  | levels + 1, scope, path, hpath, hv => by
      rw [Workflow.preorder] at hv
      cases hstates : State.declared? scope with
      | none =>
          rw [hstates] at hv
          cases hv
      | some states =>
          simp only [hstates, List.mem_flatMap, List.mem_cons, Prod.exists] at hv
          obtain ⟨id, state, -, rfl | ⟨inner, p, hnested, hv⟩⟩ := hv
          · exact isKey_concat hpath rfl
          · exact isKey_of_mem_preorder (isKey_of_mem_nestedScopes (isKey_concat hpath rfl) hnested)
              hv

theorem foldlM_eq_ok
    {α β : Type} {f : β → α → Except Fault β} {g : β → α → β} {l : List α}
    (h : ∀ b, ∀ a ∈ l, f b a = .ok (g b a)) (b : β) :
    l.foldlM f b = .ok (l.foldl g b) := by
  induction l generalizing b with
  | nil => rfl
  | cons a l ih =>
      rw [List.foldlM_cons, h b a List.mem_cons_self, ok_bind,
        ih fun b' a' ha' => h b' a' (List.mem_cons_of_mem _ ha')]
      rfl

/-- A path of possible keys holds no segment that is none. -/
theorem find?_eq_none_of_isKey
    {path : Path} (h : ∀ s ∈ path, s.isKey = true) :
    path.find? (fun s => !s.isKey) = none := by
  rw [List.find?_eq_none]
  exact fun s hs => by simp [h s hs]

theorem addEdge_eq
    {scope : Path} (hscope : ∀ s ∈ scope, s.isKey = true) (entries : Predecessors)
    (source target : Text) :
    addEdge entries scope source target = .ok (entries.addEdge scope source target) := by
  rw [addEdge, find?_eq_none_of_isKey hscope]

/-- The reverse adjacency of a value of any shape. -/
theorem ofWorkflow_eq
    (root : Value) :
    ofWorkflow root = .ok (Predecessors.ofWorkflow root) := by
  rw [ofWorkflow, preorder_eq, ok_bind]
  refine foldlM_eq_ok (fun entries visit hvisit => ?_) []
  have hkeys : ∀ s ∈ visit.path.dropLast, s.isKey = true := fun s hs =>
    isKey_of_mem_preorder (fun _ h => absurd h List.not_mem_nil) hvisit s
      (List.dropLast_subset _ hs)
  rw [addVisit, nextIds_eq, ok_bind]
  exact foldlM_eq_ok (fun entries target _ => addEdge_eq hkeys entries visit.id target) entries

/-! ## Searches that are safe -/

theorem findSomeM?_eq_ok
    {α β : Type} {f : α → Except Fault (Option β)} {g : α → Option β} {l : List α}
    (h : ∀ a ∈ l, f a = .ok (g a)) :
    l.findSomeM? f = .ok (l.findSome? g) := by
  induction l with
  | nil => rfl
  | cons a l ih =>
      rw [List.findSomeM?, List.findSome?_cons, h a List.mem_cons_self, ok_bind]
      cases g a with
      | none => exact ih fun a' ha' => h a' (List.mem_cons_of_mem _ ha')
      | some b => rfl

theorem searchId_eq
    (id : Text) :
    ∀ (levels : Nat) (scope : Value) (path : Path),
      searchId id levels scope path = .ok (Workflow.searchId id levels scope path)
  | 0, _, _ => rfl
  | levels + 1, scope, path => by
      rw [searchId, Workflow.searchId]
      cases hstates : State.declared? scope with
      | none => rfl
      | some states =>
          rw [Option.isSome_some, if_pos rfl, declared_eq hstates, ok_bind]
          dsimp only
          rw [← Fields.isSome_get?]
          cases hget : states.get? id with
          | some state =>
              have hfield : (Value.obj states).get? id = some state := hget
              rw [Option.isSome_some, if_pos rfl, index_eq hfield]
              rfl
          | none =>
              refine findSomeM?_eq_ok fun field _ => ?_
              rw [nestedScopes_eq, ok_bind]
              refine findSomeM?_eq_ok fun nested _ => ?_
              rw [searchId_eq id levels nested.1 nested.2]
              rfl

theorem branchAt_eq
    {owner : Value} (howner : owner.isObject = true) (s : Segment) :
    branchAt owner s = .ok (State.branchAt? owner s) := by
  rw [branchAt, State.branchAt?]
  cases s.index? with
  | none => rfl
  | some i =>
      dsimp only
      rw [fieldOf_eq howner, ok_bind, Option.bind_some, State.branches?, items?_get, Value.isArray]
      cases hitems : (owner.get "Branches").items? with
      | none => rfl
      | some scopes =>
          rw [elements_eq hitems]
          by_cases hi : i < 0
          · simp [hi, Int.not_le.mpr hi, pure_eq_ok]
          · simp [hi, Int.not_lt.mp hi, ok_bind, pure_eq_ok]

/-- In a mapping of states, a possible key leads to a state or to nothing. -/
theorem entry_eq
    {states : Value} {fields : Fields} (hfields : states.fields? = some fields) {s : Segment}
    (hs : s.isKey = true) :
    entry states s = .ok ((s.name?.bind fields.get?).getD .null) := by
  have hstates : states.isObject = true := by rw [Value.isObject, hfields, Option.isSome_some]
  unfold entry
  rw [if_pos hs]
  cases s with
  | name id =>
      dsimp only
      rw [fieldOf_eq hstates, Value.get, Value.get?, hfields]
      rfl
  | _ => simp [Unchecked.fields, hfields, ok_map, Segment.name?]

/-- The way along owners under possible keys. -/
theorem ownedScope_eq
    (scope : Value)
    (path : Path)
    (h : ∀ s ∈ path, s.isKey = true) :
    ownedScope scope path = .ok (Workflow.ownedScope scope path) := by
  -- A Parallel state takes two segments at once, hence the induction on the length.
  induction hlength : path.length using Nat.strong_induction_on generalizing scope path with
  | _ length ih =>
    cases path with
    | nil =>
        rw [ownedScope, Workflow.ownedScope]
        rfl
    | cons s rest =>
        have hrest : ∀ t ∈ rest, t.isKey = true := fun t ht => h t (List.mem_cons_of_mem _ ht)
        rw [ownedScope]
        cases hstates : State.declared? scope with
        | none => cases s <;> simp [Workflow.ownedScope, hstates, pure_eq_ok]
        | some states =>
            obtain ⟨mapping, hmapping, hfields⟩ := Option.bind_eq_some_iff.mp hstates
            rw [Option.isSome_some, if_pos rfl, index_eq hmapping, ok_bind,
              entry_eq hfields (h s List.mem_cons_self), ok_bind]
            cases s with
            | name id =>
                rw [Segment.name?, Option.bind_some]
                cases hget : states.get? id with
                | none =>
                    rw [Workflow.ownedScope, hstates, Option.bind_some, hget]
                    rfl
                | some owner =>
                    have howner : (State.declared? scope).bind (Fields.get? · id) = some owner := by
                      rw [hstates, Option.bind_some, hget]
                    rw [Option.getD_some, ownedScope_owner howner]
                    cases hkind : State.kind? owner with
                    | none => rfl
                    | some kind =>
                        have hobject := isObject_of_kind? hkind
                        cases kind with
                        | map =>
                            dsimp only
                            rw [processor?_eq hobject, ok_bind,
                              ih rest.length (by simp [← hlength]) _ rest hrest rfl]
                            rfl
                        | parallel =>
                            cases rest with
                            | nil => rfl
                            | cons t rest =>
                                dsimp only
                                rw [branchAt_eq hobject, ok_bind]
                                cases hbranch : State.branchAt? owner t with
                                | none => simp [hbranch, pure_eq_ok]
                                | some inner =>
                                    dsimp only
                                    have hshorter : rest.length < length := by
                                      simp only [← hlength, List.length_cons]
                                      omega
                                    rw [ih rest.length hshorter inner rest
                                      (fun u hu => hrest u (List.mem_cons_of_mem _ hu)) rfl]
                                    simp [hbranch]
                        | _ => rfl
            | _ =>
                rw [Workflow.ownedScope]
                · rfl
                · exact fun id heq => by cases heq

theorem findPath_eq
    (root : Value) {path : Path} (hpath : ∀ s ∈ path, s.isKey = true) :
    findPath root path = .ok (Workflow.findPath root path) := by
  unfold findPath Workflow.findPath
  rcases path.getLast? with _ | ⟨id⟩ | i | v
  · rfl
  · dsimp only
    by_cases hlength : maxPathLength < path.length
    · rw [if_pos hlength, if_pos hlength]
      rfl
    · rw [if_neg hlength, if_neg hlength,
        ownedScope_eq root path.dropLast fun s hs => hpath s (List.dropLast_subset _ hs), ok_bind]
      cases Workflow.ownedScope root path.dropLast with
      | none => rfl
      | some scope =>
          dsimp only
          cases hstates : State.declared? scope with
          | none => rfl
          | some states =>
              rw [Option.isSome_some, if_pos rfl, declared_eq hstates, ok_bind, Option.bind_some,
                ← Fields.isSome_get?]
              cases hget : states.get? id with
              | none => rfl
              | some state =>
                  have hfield : (Value.obj states).get? id = some state := hget
                  rw [Option.isSome_some, if_pos rfl, index_eq hfield]
                  rfl
  · rfl
  · rfl

/-! ## Variables that are safe to collect -/

theorem blockToward_eq
    {v : Value} (hv : v.isObject = true) (field : Text) (successor : Value) :
    blockToward v field successor = .ok (State.blockToward v field successor) := by
  rw [blockToward, fieldOf_eq hv, ok_bind, fieldOf_eq hv, ok_bind, State.blockToward, hv,
    Bool.true_and]
  cases htaken : (v.get "Assign").truthy && (v.get field).same successor with
  | false => rfl
  | true =>
      -- what counts as present is there
      have hblock : v.get? "Assign" = some (v.get "Assign") := by
        rw [Bool.and_eq_true] at htaken
        have htruthy := htaken.1
        rw [Value.get] at htruthy ⊢
        cases hget : v.get? "Assign" with
        | none =>
            rw [hget] at htruthy
            cases htruthy
        | some block => rfl
      rw [if_pos rfl, if_pos rfl, index_eq hblock]
      rfl

section EdgeVariables

variable {state : Value} (hstate : state.isObject = true) (successor : Value)

include hstate

theorem ruleBlocks_eq
    (field : Text) :
    ruleBlocks state field successor = .ok (State.ruleBlocks state field successor) := by
  rw [ruleBlocks, fieldOf_eq hstate, ok_bind, State.ruleBlocks]
  cases hget : state.get? field with
  | none =>
      have hnull : state.get field = .null := by rw [Value.get, hget, Option.getD_none]
      rw [hnull]
      rfl
  | some rules =>
      have hrules : state.get field = rules := by rw [Value.get, hget, Option.getD_some]
      rw [hrules, Option.bind_some, Value.isArray]
      cases hitems : rules.items? with
      | none => rfl
      | some items =>
          have hblocks : (items.filter Value.isObject).mapM
              (fun rule => blockToward rule "Next" successor) =
              .ok ((items.filter Value.isObject).map fun rule =>
                State.blockToward rule "Next" successor) :=
            mapM_eq_ok_map fun rule hrule =>
              blockToward_eq (List.mem_filter.mp hrule).2 "Next" successor
          rw [Option.isSome_some, if_pos rfl, index_eq hget, ok_bind, elements_eq hitems, ok_bind,
            hblocks, ok_bind, List.filterMap_map, List.filterMap_filter]
          refine congrArg Except.ok (List.filterMap_congr fun rule _ => ?_)
          cases hobject : rule.isObject with
          | false => simp [State.blockToward, hobject]
          | true => rfl

/-- The variables bound on the edges of an object. -/
theorem edgeVariables_eq :
    edgeVariables state successor = .ok (State.edgeVariables state successor) := by
  have hblocks : edgeBlocks state successor = .ok (State.edgeBlocks state successor) := by
    rw [edgeBlocks, State.edgeBlocks]
    simp only [ruleBlocks_eq hstate, blockToward_eq hstate, ok_bind, ok_map, pure_eq_ok]
    cases State.isKind state .choice <;> cases State.handlesErrors state <;> rfl
  rw [edgeVariables, hblocks]
  rfl

end EdgeVariables

/-- The edges of a state that is no object are not looked at: that would be a fault. -/
example : edgeVariables .null (.str "A") = .error (.noFields .null) := rfl

section SafeWalk

variable {walk : Walk} (hpath : ∀ s ∈ walk.path, s.isKey = true)

include hpath

theorem edgesTo_eq
    (target : Text) :
    edgesTo walk target = .ok (walk.edgesTo target) := by
  unfold edgesTo Predecessors.sources?
  rw [find?_eq_none_of_isKey hpath]
  rfl

/-- Only edges of states that may bind variables are followed, and these states are objects. -/
theorem explore_eq :
    ∀ (budget : Nat) (pending seen : List ScopeEdge) (tree : Value),
      explore walk budget pending seen tree = .ok (walk.explore budget pending seen tree)
  | 0, _, _, _ => rfl
  | budget + 1, pending, seen, tree => by
      rw [explore, Walk.explore]
      cases hpending : pending.dropWhile (walk.isStale seen) with
      | nil => rfl
      | cons edge rest =>
          have hfresh := (dropWhile_eq_cons hpending).1
          rw [Walk.isStale_iff, not_or, Bool.not_eq_false] at hfresh
          have hbound : bound walk edge = .ok (walk.bound edge) := by
            rw [bound, Walk.bound]
            split
            · rfl
            · exact edgeVariables_eq (isObject_of_kindHas hfresh.2) (.str edge.2)
          dsimp only
          rw [hbound, ok_bind, edgesTo_eq hpath, ok_bind, explore_eq]

theorem variablesTo_eq
    (target : Text) :
    variablesTo walk target = .ok (walk.variablesTo target) := by
  rw [variablesTo, edgesTo_eq hpath, ok_bind, explore_eq hpath]
  rfl

end SafeWalk

end Unchecked

/-- What the search for variables takes from an address: the last id of its path, the states of its
scope, and a path that can be a key. -/
structure Address.Grounded (a : Address) (id : Text) : Prop where
  named : a.id? = some id
  declares : State.declared? a.parent = some a.siblings
  keys : ∀ s ∈ a.parentPath, s.isKey = true

theorem Address.Located.grounded
    {root : Value} {a : Address} {id : Text} (ha : a.Located root id) :
    a.Grounded id where
  named := ha.id?_eq
  declares := ha.siblings.1
  keys s hs := Segment.isKey_of_leads (ha.scope.leads s hs)

/-- What a search by id finds can be used. -/
theorem grounded_of_searchId
    {id : Text} {a : Address} :
    ∀ {levels : Nat} {scope : Value} {path : Path}, (∀ s ∈ path, s.isKey = true) →
      searchId id levels scope path = some a → a.Grounded id
  | 0, _, _, _, h => by
      cases h
  | levels + 1, scope, path, hpath, h => by
      obtain ⟨states, hstates, ⟨state, -, rfl⟩ | ⟨field, -, nested, hnested, hsearch⟩⟩ :=
        searchId_cases h
      · refine ⟨by simp [Address.id?, Segment.name?], ?_, hpath⟩
        rw [Address.siblings, hstates, Option.getD_some]
      · exact grounded_of_searchId (Unchecked.isKey_of_mem_nestedScopes
          (Unchecked.isKey_concat hpath rfl) hnested) hsearch

namespace Unchecked

theorem isolates_eq
    (a : Address) (fromInside : Bool) :
    isolates a fromInside =
      .ok (fromInside && State.isKind a.state .map && State.isDistributed a.state) := by
  rw [isolates]
  cases hmap : fromInside && State.isKind a.state .map with
  | false => rfl
  | true =>
      rw [Bool.and_eq_true] at hmap
      have hkind : State.kind? a.state = some .map := by
        simpa [State.isKind] using hmap.2
      rw [if_pos rfl, isDistributed?_eq (isObject_of_kind? hkind), Bool.true_and]

theorem scopeAt_eq
    (root : Value) (entries : Predecessors) :
    ∀ (levels : Nat) {a : Address} {id : Text}, a.Grounded id → ∀ fromInside : Bool,
      scopeAt root entries levels a fromInside =
        .ok (Workflow.scopeAt root entries levels a fromInside)
  | 0, _, _, _, _ => rfl
  | levels + 1, a, id, ha, fromInside => by
      have hlast : lastId a.path = .ok id := by
        have hnamed := ha.named
        rw [Address.id?] at hnamed
        rw [lastId, hnamed]
      rw [scopeAt, Workflow.scopeAt, hlast, ok_bind, isolates_eq, ok_bind]
      cases fromInside && State.isKind a.state .map && State.isDistributed a.state with
      | true => rfl
      | false =>
          have howner : findPath root a.ownerPath = .ok (Workflow.findPath root a.ownerPath) :=
            findPath_eq root fun s hs =>
              ha.keys s ((Path.ofOwner_prefix a.parentPath).subset hs)
          have hown := @variablesTo_eq
            ⟨a.siblings, entries, a.parentPath, if fromInside then some id else none⟩ ha.keys id
          rw [if_neg Bool.false_ne_true, if_neg Bool.false_ne_true, declared_eq ha.declares,
            ok_bind]
          dsimp only
          rw [hown, ok_bind, howner, ok_bind, ha.named, Option.getD_some]
          cases hfind : Workflow.findPath root a.ownerPath with
          | none => rfl
          | some owner =>
              obtain ⟨-, -, ownerId, hlocated⟩ := findPath_eq_some_iff.mp hfind
              dsimp only
              rw [scopeAt_eq root entries levels hlocated.grounded true]
              cases owner.isPresent <;> rfl

/-- The variables in scope at a state that is referred to by an id, in any workflow. -/
theorem variableScope_eq
    (root : Value) (entries : Predecessors) (target : Text) (current : Option Text) :
    ∃ scope, variableScope root entries target current = .ok scope ∧
      Workflow.variableScope root entries (.id target) (current.map .id) = .ok scope := by
  have hfound : ∀ id, searchId id allLevels root [] = .ok (findId root id []) := fun id =>
    searchId_eq id allLevels root []
  -- whatever the goal is, the start has been found by its id
  have hanswer : ∀ (goal : Option Address) (id : Text),
      (match goal, findId root id [] with
        | some goal, some start =>
          if goal.isPresent && start.isPresent then
            scopeAt root entries start.path.length start (!Path.same start.path goal.path)
          else pure .none
        | _, _ => pure .none) = .ok (scopeBetween root entries goal (findId root id [])) := by
    intro goal id
    cases goal with
    | none => rfl
    | some goal =>
        cases hstart : findId root id [] with
        | none => rfl
        | some start =>
            have hground : start.Grounded id :=
              grounded_of_searchId (fun _ hs => absurd hs List.not_mem_nil) hstart
            rw [scopeBetween]
            dsimp only
            cases goal.isPresent && start.isPresent with
            | false => rfl
            | true => exact scopeAt_eq root entries _ hground _
  rw [variableScope, variableScope_eq_bind, hfound, ok_bind]
  cases current with
  | none => exact ⟨_, hanswer (findId root target []) target, rfl⟩
  | some id =>
      dsimp only
      rw [hfound, ok_bind]
      exact ⟨_, hanswer (findId root target []) id, rfl⟩

end Unchecked

end Workflow
