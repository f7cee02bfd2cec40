import Workflow.Document.Focus

/-!
# Completing state names

The names that fit a reference: for `StartAt` the states declared beside it, for `Next` and
`Default` the states of the enclosing scope except the one that holds the reference.
-/

namespace Workflow

namespace Focus

/-- The name of the state that holds a `Next` or `Default` property: the property around the object,
or, for a rule inside an array of the state, the property three levels further out. -/
def holderName? (f : Focus) : Option Text :=
  match f.up? 2 with
  | none => none
  | some item =>
    match item.part.propertyName? with
    | some name => some name
    | none => (item.up? 3).bind fun owner => owner.part.propertyName?

/-- The state names that fit the value of a property, in declaration order.  Properties that hold
no reference have none. -/
def candidates (lenient : Bool) (f : Focus) : List Text :=
  match f.part.propertyName? with
  | none => []
  | some name =>
    if name == "StartAt" then
      match (f.parent?.bind fun g => g.part.tree?).bind (Tree.property? · statesKey) with
      | some states => declaredNames lenient states
      | none => []
    else if name == "Next" || name == "Default" then
      match (f.closest? [statesKey]).bind fun g => g.part.property? with
      | some states => (declaredNames lenient states).filter fun n => f.holderName? != some n
      | none => []
    else []

/-- The state names that fit a place: a property whose value has not been typed, or the string that
is its value. -/
def stateNames (lenient : Bool) (f : Focus) : List Text :=
  match f.part with
  | .property p => if p.colon.isSome then f.candidates lenient else []
  | .tree (.string _ _) =>
    match f.parent? with
    | some g => if g.part.property?.isSome then g.candidates lenient else []
    | none => []
  | _ => []

end Focus

end Workflow
