import Workflow.Proofs.BackwardWalk
import Workflow.Proofs.StateOrder
import Workflow.Proofs.VisitedScopes

/-!
# Recasting workflows

A recasting rewrites the scopes and states of a workflow in place.  It keeps the kinds of the
states, the ids under which they are declared and the scopes nested in them, recast themselves, and
it keeps what the edges of a state lead to and bind.  These laws speak of one scope or one state
only.  From them everything that is computed from a workflow follows: the states are visited in the
same order under the same paths, the reverse adjacency is the same, and so are the variables in
scope.
-/

namespace Workflow

theorem Fields.get?_map
    (f : Value → Value) (fields : Fields) (name : Text) :
    Fields.get? (fields.map fun field => (field.1, f field.2)) name =
      (fields.get? name).map f := by
  rw [Fields.get?, Fields.get?, List.find?_map, Option.map_map, Option.map_map]
  rfl

/-- A rewriting of scopes and states that keeps how they are nested and what their edges bind. -/
structure Recasting where
  scope : Value → Value
  state : Value → Value
  isObject_scope : ∀ v, (scope v).isObject = v.isObject
  modeOf_scope : ∀ v, State.modeOf (scope v) = State.modeOf v
  declared?_scope : ∀ v, State.declared? (scope v) =
    (State.declared? v).map fun states => states.map fun field => (field.1, state field.2)
  isNull_state : ∀ s, (state s).isNull = s.isNull
  kind?_state : ∀ s, State.kind? (state s) = State.kind? s
  processor_state : ∀ s, State.kind? s = some .map →
    State.processor (state s) = scope (State.processor s)
  branches?_state : ∀ s, State.kind? s = some .parallel →
    State.branches? (state s) = (State.branches? s).map fun scopes => scopes.map scope
  nextIds_state : ∀ s, State.nextIds (state s) = State.nextIds s
  edgeVariables_state : ∀ s, State.edgeVariables (state s) = State.edgeVariables s

namespace Recasting

variable (r : Recasting)

/-! ## States -/

theorem bindsVariables_state
    (s : Value) :
    State.bindsVariables (r.state s) = State.bindsVariables s := by
  rw [State.bindsVariables, State.bindsVariables, State.kindHas, State.kindHas, r.kind?_state]

theorem branchAt?_state
    {s : Value} (hkind : State.kind? s = some .parallel) (selector : Segment) :
    State.branchAt? (r.state s) selector = (State.branchAt? s selector).map r.scope := by
  rw [State.branchAt?, State.branchAt?, r.branches?_state s hkind]
  cases selector.index? with
  | none => rfl
  | some i =>
      cases State.branches? s with
      | none => rfl
      | some scopes =>
          simp only [Option.map_some, Option.bind_some, List.getElem?_map]
          split <;> rfl

theorem get?_declared
    (scope : Value) (id : Text) :
    (State.declared? (r.scope scope)).bind (Fields.get? · id) =
      ((State.declared? scope).bind (Fields.get? · id)).map r.state := by
  rw [r.declared?_scope]
  cases State.declared? scope with
  | none => rfl
  | some states =>
      rw [Option.map_some, Option.bind_some, Option.bind_some, Fields.get?_map]

/-- The nested scopes of a state are the recast ones, under the same paths. -/
theorem nestedScopes_state
    (s : Value) (here : Path) :
    State.nestedScopes (r.state s) here =
      (State.nestedScopes s here).map fun nested => (r.scope nested.1, nested.2) := by
  unfold State.nestedScopes
  rw [r.kind?_state]
  rcases hkind : State.kind? s with _ | kind
  · rfl
  · cases kind with
    | map =>
        rw [r.processor_state s hkind]
        dsimp only
        rw [r.isObject_scope]
        split <;> rfl
    | parallel =>
        rw [r.branches?_state s hkind]
        cases State.branches? s with
        | none => rfl
        | some scopes =>
            dsimp only [Option.map_some]
            rw [List.zipIdx_map, List.filterMap_map, List.map_filterMap]
            refine List.filterMap_congr fun branch _ => ?_
            simp only [Function.comp_apply, Prod.map_fst, Prod.map_snd, id, r.isObject_scope]
            split <;> rfl
    | _ => rfl

/-! ## Visits and edges -/

/-- The counterpart of a visit. -/
def visit (v : Visit) : Visit :=
  ⟨v.id, r.state v.state, r.scope v.parent, v.path⟩

/-- A visit reports the counterparts, in the same order. -/
theorem preorder_scope
    (levels : Nat) :
    ∀ (scope : Value) (path : Path),
      preorder levels (r.scope scope) path = (preorder levels scope path).map r.visit := by
  induction levels with
  | zero =>
      intro scope path
      rfl
  | succ levels ih =>
      intro scope path
      have hrecast := r.declared?_scope scope
      cases hstates : State.declared? scope with
      | none =>
          rw [hstates] at hrecast
          rw [preorder, preorder, hrecast, hstates]
          rfl
      | some states =>
          rw [hstates] at hrecast
          rw [preorder_succ hrecast, preorder_succ hstates, List.flatMap_map, List.map_flatMap]
          refine List.flatMap_congr fun field _ => ?_
          rw [r.nestedScopes_state, List.flatMap_map, List.map_cons, List.map_flatMap]
          simp only [ih]
          rfl

theorem ofWorkflow_scope
    (root : Value) :
    Predecessors.ofWorkflow (r.scope root) = Predecessors.ofWorkflow root := by
  rw [Predecessors.ofWorkflow, Predecessors.ofWorkflow, allStates, allStates, r.preorder_scope,
    List.foldl_map]
  refine congrArg (fun step => List.foldl step [] _) (funext fun entries => funext fun v => ?_)
  rw [Predecessors.addVisit, Predecessors.addVisit, visit, r.nextIds_state]

/-! ## Addresses -/

/-- The counterpart of an address. -/
def address (a : Address) : Address :=
  ⟨r.state a.state, r.scope a.parent, a.path, a.parentPath⟩

theorem isPresent_address
    (a : Address) :
    (r.address a).isPresent = a.isPresent := by
  rw [Address.isPresent, Address.isPresent, address, r.isNull_state]

theorem siblings_address
    (a : Address) :
    (r.address a).siblings = a.siblings.map fun field => (field.1, r.state field.2) := by
  rw [Address.siblings, Address.siblings, address, r.declared?_scope]
  cases State.declared? a.parent <;> rfl

theorem isolates_address
    (a : Address) :
    (r.address a).isolates = a.isolates := by
  refine Address.isolates_congr (r.kind?_state a.state) fun hmap => ?_
  rw [address, r.kind?_state] at hmap
  rw [address, State.mode, State.mode, r.processor_state _ hmap, r.modeOf_scope]

/-- Along the same owners, the recast workflow leads to the recast scopes. -/
theorem ownedScope_scope :
    ∀ (b : Path) (scope : Value),
      ownedScope (r.scope scope) b = (ownedScope scope b).map r.scope
  | [], _ => rfl
  | .index _ :: _, _ => rfl
  | .other _ :: _, _ => rfl
  | .name id :: rest, scope => by
      have hrecast := r.get?_declared scope id
      cases howner : (State.declared? scope).bind (Fields.get? · id) with
      | none =>
          rw [howner] at hrecast
          rw [ownedScope, ownedScope, hrecast, howner]
          rfl
      | some owner =>
          rw [howner] at hrecast
          rw [ownedScope_owner hrecast, ownedScope_owner howner, r.kind?_state]
          by_cases hmap : State.kind? owner = some .map
          · rw [if_pos hmap, if_pos hmap, r.processor_state _ hmap, ownedScope_scope rest]
          · rw [if_neg hmap, if_neg hmap]
            by_cases hparallel : State.kind? owner = some .parallel
            · rw [if_pos hparallel, if_pos hparallel]
              cases rest with
              | nil => rfl
              | cons selector rest =>
                  simp only [List.head?_cons, Option.bind_some, List.tail_cons,
                    r.branchAt?_state hparallel]
                  cases State.branchAt? owner selector with
                  | none => rfl
                  | some branch => exact ownedScope_scope rest branch
            · rw [if_neg hparallel, if_neg hparallel]
              rfl

theorem findPath_scope
    (root : Value) (p : Path) :
    findPath (r.scope root) p = (findPath root p).map r.address := by
  unfold findPath
  cases p.getLast? with
  | none => rfl
  | some s =>
      cases s with
      | index i => rfl
      | other v => rfl
      | name id =>
          dsimp only
          split
          · rfl
          · rw [r.ownedScope_scope]
            cases ownedScope root p.dropLast with
            | none => rfl
            | some scope =>
                dsimp only [Option.map_some]
                rw [r.get?_declared]
                cases (State.declared? scope).bind (Fields.get? · id) <;> rfl

/-- Search along any path fails where it failed before. -/
theorem findPath?_scope
    (root : Value) (p : Path) :
    findPath? (r.scope root) p = (findPath? root p).map (Option.map r.address) := by
  unfold findPath?
  rw [r.findPath_scope]
  cases p.getLast? with
  | none => rfl
  | some s =>
      cases s with
      | index i => rfl
      | other v => rfl
      | name id =>
          dsimp only
          split
          · rfl
          · split
            · next front stop _ _ =>
                have hreached :
                    ((ownedScope (r.scope root) front).bind State.declared?).isSome =
                      ((ownedScope root front).bind State.declared?).isSome := by
                  rw [r.ownedScope_scope]
                  cases ownedScope root front with
                  | none => rfl
                  | some scope =>
                      rw [Option.map_some, Option.bind_some, Option.bind_some,
                        r.declared?_scope, Option.isSome_map]
                rw [hreached]
                split <;> rfl
            · rfl

theorem searchId_scope
    (id : Text) (levels : Nat) :
    ∀ (scope : Value) (path : Path),
      searchId id levels (r.scope scope) path = (searchId id levels scope path).map r.address := by
  induction levels with
  | zero =>
      intro scope path
      rfl
  | succ levels ih =>
      intro scope path
      rw [searchId, searchId, r.declared?_scope]
      cases State.declared? scope with
      | none => rfl
      | some states =>
          dsimp only [Option.map_some]
          rw [Fields.get?_map]
          cases states.get? id with
          | some state => rfl
          | none =>
              -- deeper down every nested scope answers with the counterpart of what it found
              dsimp only [Option.map_none]
              rw [List.findSome?_map, List.map_findSome?]
              refine congrArg (List.findSome? · states) (funext fun field => ?_)
              simp only [Function.comp_apply, r.nestedScopes_state, List.findSome?_map,
                List.map_findSome?]
              refine congrArg (List.findSome? · _) (funext fun nested => ?_)
              simp only [Function.comp_apply, ih]
              cases searchId id levels nested.1 nested.2 with
              | none => rfl
              | some a =>
                  rw [Option.map_some, Option.filter_some, Option.filter_some, r.isPresent_address]
                  split <;> rfl

/-- A reference finds the counterpart of what it found. -/
theorem locate_scope
    (root : Value) (reference : Reference) :
    reference.locate (r.scope root) = (reference.locate root).map (Option.map r.address) := by
  cases reference with
  | id t => exact congrArg Except.ok (r.searchId_scope t allLevels root [])
  | path p => exact r.findPath?_scope root p
  | unknown => rfl

/-! ## Variables in scope -/

/-- The walks in counterparts follow the same edges, which bind the same variables. -/
theorem variablesTo_address
    (a : Address) (entries : Predecessors) (silent : Option Text) (target : Text) :
    (⟨(r.address a).siblings, entries, a.parentPath, silent⟩ : Walk).variablesTo target =
      (⟨a.siblings, entries, a.parentPath, silent⟩ : Walk).variablesTo target := by
  have hsiblings : ∀ source, (r.address a).siblings.get? source =
      (a.siblings.get? source).map r.state := by
    intro source
    rw [r.siblings_address, Fields.get?_map]
  refine Walk.variablesTo_congr (funext fun edge => ?_) (funext fun edge => ?_) (fun id => ?_)
    target
  · rw [Walk.binds, Walk.binds, hsiblings]
    cases a.siblings.get? edge.1 with
    | none => rfl
    | some s => exact r.bindsVariables_state s
  · rw [Walk.bound, Walk.bound, hsiblings]
    cases a.siblings.get? edge.1 with
    | none => rfl
    | some s => rw [Option.map_some, Option.getD_some, Option.getD_some, r.edgeVariables_state]
  · rfl

theorem scopeAt_address
    (root : Value) (entries : Predecessors) (levels : Nat) :
    ∀ (a : Address) (fromInside : Bool),
      scopeAt (r.scope root) entries levels (r.address a) fromInside =
        scopeAt root entries levels a fromInside := by
  induction levels with
  | zero =>
      intro a fromInside
      rfl
  | succ levels ih =>
      intro a fromInside
      -- isolation and the walk do not change, and the owner is the counterpart of the owner
      have hisolates := r.isolates_address a
      rw [Address.isolates, Address.isolates] at hisolates
      rw [scopeAt, scopeAt, Bool.and_assoc, Bool.and_assoc, hisolates]
      split
      · rfl
      · have howner : findPath (r.scope root) (r.address a).ownerPath =
            (findPath root a.ownerPath).map r.address := r.findPath_scope root _
        have hid : (r.address a).id? = a.id? := rfl
        have hparent : (r.address a).parentPath = a.parentPath := rfl
        simp only [hid, hparent, r.variablesTo_address, howner]
        cases findPath root a.ownerPath with
        | none => rfl
        | some owner => simp only [Option.map_some, r.isPresent_address, ih]

/-- The recast workflow has the same variables in scope, whatever is asked for. -/
theorem variableScope_scope
    (root : Value) (entries : Predecessors) (target : Reference) (current : Option Reference) :
    variableScope (r.scope root) entries target current =
      variableScope root entries target current := by
  have hbetween : ∀ goal start : Option Address,
      scopeBetween (r.scope root) entries (goal.map r.address) (start.map r.address) =
        scopeBetween root entries goal start := by
    intro goal start
    cases goal with
    | none => rfl
    | some goal =>
        cases start with
        | none => rfl
        | some start =>
            simp only [Option.map_some, scopeBetween, r.isPresent_address, r.scopeAt_address]
            rfl
  rw [variableScope_eq_bind, variableScope_eq_bind, r.locate_scope, r.locate_scope]
  cases target.locate root with
  | error fault => rfl
  | ok goal =>
      cases (current.getD target).locate root with
      | error fault => rfl
      | ok start => exact congrArg Except.ok (hbetween goal start)

end Recasting

end Workflow
