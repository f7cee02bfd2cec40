import Workflow.State.Kind
import Workflow.State.Path
import Workflow.Number.Literal

/-!
# Forward edges

Which states a state can hand control to: its `Next`, the rules and the `Default` of a Choice
state, and the Catch rules of a state that handles errors.
-/

namespace Workflow

namespace State

/-- The `Next` values of the object items of an array-valued field. -/
def ruleTargets (state : Value) (field : Text) : List Value :=
  match (state.get? field).bind Value.items? with
  | some rules => rules.filterMap fun rule => if rule.isObject then some (rule.get "Next") else none
  | none => []

/-- The values in the places of targets, in declaration order. -/
def targetValues (state : Value) : List Value :=
  let own := [state.get "Next"]
  let choices :=
    if isKind state .choice then ruleTargets state "Choices" ++ [state.get "Default"] else []
  let catches := if handlesErrors state then ruleTargets state "Catch" else []
  own ++ choices ++ catches

/-- Keeps the first of equal texts. -/
def keepFirst : List Text → List Text
  | ts => (ts.foldl (fun kept t => if kept.contains t then kept else t :: kept) []).reverse

/-- Every id that a state can hand control to, in declaration order and without repetition.
Targets that are no texts are ignored. -/
def nextIds (state : Value) : List Text := keepFirst ((targetValues state).filterMap Value.text?)

/-- A value, or null when it does not count as present. -/
def orNull (v : Value) : Value := if v.truthy then v else .null

/-- The single edge used for basic chaining: none for a terminal state, the Default or else the
first rule's Next for a Choice state, the Next for any other. -/
def directNext (state : Value) : Except Fault Value :=
  match kind? state with
  | some .succeed => .ok .null
  | some .fail => .ok .null
  | some .choice =>
    if (state.get "Default").truthy then .ok (state.get "Default")
    else
      match (state.get? "Choices").bind Value.items? with
      | some (rule :: _) => .ok (orNull (rule.get "Next"))
      | _ => .ok .null
  | _ => (fieldOf state "Next").map orNull

end State

/-- The index in a branch label such as `Branches[3]`, followed by at most one line feed. -/
def branchIndex (label : Text) : Except Fault (Option Int) :=
  let opening : Text := "Branches["
  if opening.isPrefixOf label then
    let rest := label.drop opening.length
    let digits := rest.takeWhile CodePoint.isDecimal
    let tail := rest.dropWhile CodePoint.isDecimal
    if digits.isEmpty then .ok none
    else if tail == "]" || tail == "]\n" then
      (Numeral.integer 10 digits).map some
    else .ok none
  else .ok none

/-- The branch index of a label that may be any value. -/
def branchIndex? : Value → Except Fault (Option Int)
  | .str label => branchIndex label
  | _ => .error .notText

/-- Whether a value, taken as a scope path, addresses a Parallel branch. -/
def isBranchPath? : Value → Except Fault Bool
  | .null => .ok false
  | .arr items => .ok (Path.ofValues items).isBranch
  | .str _ => .ok false
  | .obj fields => if fields.length ≤ 1 then .ok false else .error .noPositions
  | v => .error (.notASequence v.kind)

/-- The last id on a value taken as a path. -/
def lastName? : Value → Except Fault (Option Text)
  | .arr items => .ok (Path.ofValues items).lastName?
  | .str t => .ok (t.getLast?.map ([·]))
  | .obj fields => .ok ((fields.getLast?).map (·.1))
  | v => .error (.notASequence v.kind)

end Workflow
