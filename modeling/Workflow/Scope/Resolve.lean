import Workflow.Scope.Binding
import Workflow.Scope.Predecessors
import Workflow.State.Lookup

/-!
# Variables in scope

Which variables are bound when a state starts.  The variables of the state's own scope come from
a backward walk over the reverse adjacency: every edge that leads to the state through states
which may bind variables contributes what it binds.  The outer variables repeat the computation
for the owner of the scope, whose own bindings do not count because they take effect only after
its nested scopes are finished.  A Map state that runs distributed hides everything outside.

The walk follows each edge at most once, so the number of edges bounds it.
-/

namespace Workflow

/-- The variables in scope at a state: those of its own scope and those of the enclosing ones. -/
structure VariableScope where
  own : Value
  outer : Value

/-- Nothing in scope. -/
def VariableScope.none : VariableScope := ⟨KeyTree.empty, KeyTree.empty⟩

/-- An edge from a source to a target within one scope. -/
abbrev ScopeEdge := Text × Text

/-- What a backward walk needs to know about its scope. -/
structure Walk where
  states : Fields
  entries : Predecessors
  path : Path
  /-- The state whose bindings are left out, if any. -/
  silent : Option Text

namespace Walk

/-- The edges that lead to a state, last one first. -/
def edgesTo (walk : Walk) (target : Text) : List ScopeEdge :=
  (walk.entries.sources walk.path target).reverse.map fun source => (source, target)

/-- An edge that has been followed before, or whose source may not bind variables. -/
def isStale (walk : Walk) (seen : List ScopeEdge) (edge : ScopeEdge) : Bool :=
  seen.contains edge || !State.bindsVariables ((walk.states.get? edge.1).getD .null)

/-- The variables bound on an edge. -/
def bound (walk : Walk) (edge : ScopeEdge) : Value :=
  if walk.silent == some edge.1 then KeyTree.empty
  else State.edgeVariables ((walk.states.get? edge.1).getD .null) (.str edge.2)

/-- Follows the pending edges, newest first, and merges what they bind.  The first argument bounds
the number of edges that are still to be followed. -/
def explore (walk : Walk) : Nat → List ScopeEdge → List ScopeEdge → Value → Value
  | 0, _, _, tree => tree
  | budget + 1, pending, seen, tree =>
    match pending.dropWhile (walk.isStale seen) with
    | [] => tree
    | edge :: rest =>
      explore walk budget (walk.edgesTo edge.1 ++ rest) (edge :: seen)
        (KeyTree.merge tree (walk.bound edge))

/-- The variables bound on the way to a state. -/
def variablesTo (walk : Walk) (target : Text) : Value :=
  walk.explore walk.entries.edgeCount (walk.edgesTo target) [] KeyTree.empty

end Walk

/-- The path of the state that owns the scope of an address. -/
def Address.ownerPath (a : Address) : Path := Path.ofOwner a.parentPath

/-- The variables in scope at an address.  `fromInside` says that the scope is seen from inside the
state's own nested scopes.  The first argument bounds the number of enclosing scopes. -/
def scopeAt (root : Value) (entries : Predecessors) : Nat → Address → Bool → VariableScope
  | 0, _, _ => .none
  | levels + 1, a, fromInside =>
    if fromInside && State.isKind a.state .map && State.isDistributed a.state then .none
    else
      let id := a.id?.getD []
      let walk : Walk := ⟨a.siblings, entries, a.parentPath, if fromInside then some id else none⟩
      let own := walk.variablesTo id
      let outer :=
        match findPath root a.ownerPath with
        | some owner =>
          if owner.isPresent then
            let above := scopeAt root entries levels owner true
            KeyTree.merge above.own above.outer
          else KeyTree.empty
        | none => KeyTree.empty
      ⟨own, outer⟩

/-- How a state is referred to. -/
inductive Reference where
  | id (t : Text)
  | path (p : Path)
  | unknown

namespace Reference

/-- A text is an id and an array is a path; nothing else refers to a state. -/
def ofValue : Value → Reference
  | .str t => .id t
  | .arr items => .path (Path.ofValues items)
  | _ => .unknown

/-- The address that is referred to. -/
def locate (root : Value) : Reference → Except Fault (Option Address)
  | .id t => .ok (findId root t [])
  | .path p => findPath? root p
  | .unknown => .ok .none

end Reference

/-- The variables in scope when a state starts, seen from `current`: the state itself, or one of
its owners when the question is what its nested scopes see. -/
def variableScope (root : Value) (entries : Predecessors) (target : Reference)
    (current : Option Reference) : Except Fault VariableScope := do
  let goal ← target.locate root
  let start ← match current with
    | some reference => reference.locate root
    | none => pure goal
  match goal, start with
  | some goal, some start =>
    if goal.isPresent && start.isPresent then
      pure (scopeAt root entries start.path.length start (!Path.same start.path goal.path))
    else pure .none
  | _, _ => pure .none

/-- A workflow together with its reverse adjacency. -/
structure Snapshot where
  workflow : Value
  entries : Predecessors

namespace Snapshot

/-- The snapshot of no workflow at all. -/
def empty : Snapshot := ⟨.obj [], []⟩

/-- The snapshot of a workflow. -/
def ofWorkflow (root : Value) : Snapshot := ⟨root, Predecessors.ofWorkflow root⟩

/-- The variables in scope at a state of the workflow. -/
def variableScope (snapshot : Snapshot) (target : Reference) (current : Option Reference) :
    Except Fault VariableScope :=
  Workflow.variableScope snapshot.workflow snapshot.entries target current

end Snapshot

end Workflow
