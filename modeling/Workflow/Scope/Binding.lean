import Workflow.Scope.KeyTree
import Workflow.State.Kind

/-!
# Variables bound along an edge

A state binds variables on its way to a successor: its own `Assign` when the edge is its `Next`
(for a Choice state, its `Default`), and the `Assign` of the Choice and Catch rules that route to
that successor.
-/

namespace Workflow

namespace State

/-- Name of the field that editors use for half-finished Assign blocks; it binds nothing. -/
def draftField : Text := "ValueEnteredInForm"

/-- The key tree of an Assign block; empty when the block is no object. -/
def assignKeys (block : Value) : Value :=
  match block with
  | .obj fields => .obj (KeyTree.shapeFields (fields.filter fun field => field.1 != draftField))
  | _ => KeyTree.empty

/-- The Assign block that an object binds when one of its fields names the successor. -/
def blockToward (v : Value) (field : Text) (successor : Value) : Option Value :=
  let block := v.get "Assign"
  if v.isObject && block.truthy && (v.get field).same successor then some block else none

/-- The blocks of the rules in an array-valued field that route to the successor. -/
def ruleBlocks (state : Value) (field : Text) (successor : Value) : List Value :=
  match (state.get? field).bind Value.items? with
  | some rules => rules.filterMap fun rule => blockToward rule "Next" successor
  | none => []

/-- The Assign blocks that take effect on the edge to a successor, in order. -/
def edgeBlocks (state : Value) (successor : Value) : List Value :=
  let catches := if handlesErrors state then ruleBlocks state "Catch" successor else []
  let own :=
    if isKind state .choice then
      ruleBlocks state "Choices" successor ++ (blockToward state "Default" successor).toList
    else (blockToward state "Next" successor).toList
  catches ++ own

/-- The key tree of the variables that a state binds on the edge to a successor. -/
def edgeVariables (state : Value) (successor : Value) : Value :=
  (edgeBlocks state successor).foldl (fun tree block => KeyTree.merge tree (assignKeys block))
    KeyTree.empty

/-- The variables on an edge of a state that has to be an object. -/
def edgeVariables? (state : Value) (successor : Value) : Except Fault Value :=
  if state.isObject then .ok (edgeVariables state successor) else .error (.noFields state.kind)

end State

end Workflow
