import Workflow.State.Edge
import Workflow.State.Visit

/-!
# Reverse adjacency

For every scope of a workflow and every id that is the target of an edge there, the states that
can hand control to it.  Entries are keyed by the path of the scope and the id, so equal ids in
different scopes never meet; the entries and the states in them stand in visiting order.
-/

namespace Workflow

/-- The states that lead to an id within one scope. -/
structure Incoming where
  scope : Path
  target : Text
  sources : List Text

/-- The reverse adjacency of a workflow. -/
abbrev Predecessors := List Incoming

namespace Predecessors

/-- Adds an edge to the entry of its target. -/
def addEdge (entries : Predecessors) (scope : Path) (source target : Text) : Predecessors :=
  match entries with
  | [] => [⟨scope, target, [source]⟩]
  | entry :: rest =>
    if entry.target == target && Path.same entry.scope scope then
      if entry.sources.contains source then entry :: rest
      else { entry with sources := entry.sources ++ [source] } :: rest
    else entry :: addEdge rest scope source target

/-- Adds the edges of one visited state. -/
def addVisit (entries : Predecessors) (visit : Visit) : Predecessors :=
  (State.nextIds visit.state).foldl
    (fun entries target => addEdge entries visit.path.dropLast visit.id target) entries

/-- The reverse adjacency of every scope of a workflow. -/
def ofWorkflow (root : Value) : Predecessors := (allStates root).foldl addVisit []

/-- The states that lead to an id of a scope. -/
def sources (entries : Predecessors) (scope : Path) (target : Text) : List Text :=
  match entries.find? fun entry => entry.target == target && Path.same entry.scope scope with
  | some entry => entry.sources
  | none => []

/-- The number of edges. -/
def edgeCount (entries : Predecessors) : Nat :=
  entries.foldr (fun entry count => entry.sources.length + count) 0

/-- Look-up by a scope path and an id that may be any values. -/
def sources? (entries : Predecessors) (scope : Path) (target : Value) :
    Except Fault (List Text) :=
  match scope.find? (fun s => !s.isKey), target with
  | some s, _ => .error (.notAKey s.toValue.kind)
  | none, .str id => .ok (entries.sources scope id)
  | none, v => if v.isKey then .ok [] else .error (.notAKey v.kind)

end Predecessors

end Workflow
