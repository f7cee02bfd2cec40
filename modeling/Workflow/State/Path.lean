import Workflow.Value

/-!
# State paths

A path leads from the top of a workflow to a state: the ids of the owners on the way, each
Parallel owner followed by the index of a branch, and the id of the state itself.  The path of a
scope is the path of its owner, with the branch index where the owner is a Parallel state.

Paths may come from outside, so a segment can be any value; only names and indexes ever lead
anywhere.
-/

namespace Workflow

/-- One step of a path. -/
inductive Segment where
  | name (id : Text)
  | index (i : Int)
  | other (v : Value)

namespace Segment

/-- The segment that a value denotes. -/
def ofValue : Value → Segment
  | .str t => .name t
  | .int n => .index n
  | v => .other v

/-- The value that a segment was made of. -/
def toValue : Segment → Value
  | .name t => .str t
  | .index n => .int n
  | .other v => v

/-- The id in a segment. -/
def name? : Segment → Option Text
  | .name t => some t
  | _ => none

/-- The branch index in a segment; booleans count as one and zero. -/
def index? (s : Segment) : Option Int := s.toValue.index?

/-- Segments that address the same thing. -/
def same (s t : Segment) : Bool := s.toValue.same t.toValue

/-- Whether a segment can be looked up in a table. -/
def isKey (s : Segment) : Bool := s.toValue.isKey

end Segment

/-- A path to a state or to a scope. -/
abbrev Path := List Segment

namespace Path

/-- Paths that address the same thing. -/
def same : Path → Path → Bool
  | [], [] => true
  | s :: p, t :: q => s.same t && same p q
  | _, _ => false

/-- A path of names and indexes only. -/
def ofValues (values : List Value) : Path := values.map Segment.ofValue

/-- A scope path addresses a Parallel branch when it ends with a branch index. -/
def isBranch (p : Path) : Bool :=
  decide (1 < p.length) && ((p.getLast?.bind Segment.index?).isSome)

/-- The last id on a path: the owner of a scope path. -/
def lastName? (p : Path) : Option Text := p.reverse.findSome? Segment.name?

/-- Drops the branch index at the end of a scope path, which leaves the path of its owner. -/
def ofOwner (p : Path) : Path :=
  match p.getLast? with
  | some s => if s.index?.isSome then p.dropLast else p
  | none => []

end Path

end Workflow
