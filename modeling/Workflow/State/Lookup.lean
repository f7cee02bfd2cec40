import Workflow.State.Visit

/-!
# Finding states

A state is addressed by its id, which need not be unique, or by its path, which is.  Search by id
looks at the states of a scope first and then into the nested scopes, depth first.  Search by
path follows owners and branch indexes and never guesses.
-/

namespace Workflow

/-- Where a state stands: the state, the scope that declares it, its path and the scope's path. -/
structure Address where
  state : Value
  parent : Value
  path : Path
  parentPath : Path

namespace Address

/-- Name of the state at an address. -/
def id? (a : Address) : Option Text := a.path.getLast?.bind Segment.name?

/-- The states declared beside the state at an address. -/
def siblings (a : Address) : Fields := (State.declared? a.parent).getD []

/-- An address counts in a nested search unless the state there is null. -/
def isPresent (a : Address) : Bool := !a.state.isNull

end Address

/-- The first state with an id, searching a number of levels of nested scopes. -/
def searchId (id : Text) : Nat → Value → Path → Option Address
  | 0, _, _ => none
  | levels + 1, scope, path =>
    match State.declared? scope with
    | none => none
    | some states =>
      match states.get? id with
      | some state => some ⟨state, scope, path ++ [.name id], path⟩
      | none =>
        states.findSome? fun (child, state) =>
          (State.nestedScopes state (path ++ [.name child])).findSome? fun (inner, innerPath) =>
            (searchId id levels inner innerPath).filter Address.isPresent

/-- The first state with an id in a scope that stands at a path. -/
def findId (root : Value) (id : Text) (path : Path) : Option Address :=
  searchId id allLevels root path

/-- Search by id where the id may be any value: only texts are ids, and an array or an object
cannot even be looked up. -/
def findId? (root : Value) (id : Value) (path : Path) : Except Fault (Option Address) :=
  match id with
  | .str t => .ok (findId root t path)
  | v =>
    if v.isKey || (State.declared? root).isNone then .ok none else .error (.notAKey v.kind)

/-- The scope that a list of owners leads to: a Map id, or a Parallel id and a branch index. -/
def ownedScope : Value → Path → Option Value
  | scope, [] => some scope
  | scope, .name id :: rest =>
    match (State.declared? scope).bind (Fields.get? · id) with
    | none => none
    | some owner =>
      match State.kind? owner, rest with
      | some .map, rest => ownedScope (State.processor owner) rest
      | some .parallel, s :: rest =>
        match s.index?, State.branches? owner with
        | some i, some scopes =>
          if i < 0 then none
          else
            match scopes[i.toNat]? with
            | some scope => ownedScope scope rest
            | none => none
        | _, _ => none
      | _, _ => none
  | _, _ :: _ => none

/-- Paths longer than this lead nowhere. -/
def maxPathLength : Nat := maxNesting * 2

/-- The state at a path. -/
def findPath (root : Value) (path : Path) : Option Address :=
  match path.getLast? with
  | some (.name id) =>
    if maxPathLength < path.length then none
    else
      match ownedScope root path.dropLast with
      | none => none
      | some scope =>
        match (State.declared? scope).bind (Fields.get? · id) with
        | some state => some ⟨state, scope, path, path.dropLast⟩
        | none => none
  | _ => none

/-- Search by path where the owners may be any values.  An array or an object in the place of an
owner cannot be looked up, provided that the path leads to a scope with states before it. -/
def findPath? (root : Value) (path : Path) : Except Fault (Option Address) :=
  match path.getLast? with
  | some (.name _) =>
    if maxPathLength < path.length then .ok none
    else
      match path.dropLast.span Segment.isKey with
      | (front, s :: _) =>
        if ((ownedScope root front).bind State.declared?).isSome then
          .error (.notAKey s.toValue.kind)
        else .ok none
      | (_, []) => .ok (findPath root path)
  | _ => .ok none

/-- The path that the elements of a value spell out. -/
def Path.spelled? (v : Value) : Except Fault Path :=
  match v.elements? with
  | some elements => .ok (Path.ofValues elements)
  | none => .error (.notASequence v.kind)

/-- The ids of all states below the states of a scope that stands at an address. -/
def idsBelow (a : Address) : List Text :=
  (State.nestedScopes a.state a.path).flatMap fun (inner, innerPath) =>
    (preorder (allLevels - a.path.length) inner innerPath).map Visit.id

/-- The ids of all descendants of the first state with an id. -/
def descendantIds (root : Value) (id : Value) : Except Fault (List Text) :=
  (findId? root id []).map fun found =>
    match found with
    | some a => if a.isPresent then idsBelow a else []
    | none => []

end Workflow
