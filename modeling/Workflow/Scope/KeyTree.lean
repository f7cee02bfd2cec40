import Workflow.Value

/-!
# Key trees

What is known about the variables of a workflow is the shape of their values: objects and arrays
whose leaves are null.  `shape` reduces a value to its key tree.  `merge` lays one tree over
another: objects are merged name by name, arrays item by item, and where the shapes disagree the
later tree wins.
-/

namespace Workflow

namespace KeyTree

mutual

/-- The structure of a value with every primitive value replaced by null. -/
def shape : Value → Value
  | .arr items => .arr (shapeItems items)
  | .obj fields => .obj (shapeFields fields)
  | _ => .null

/-- The shapes of the items of an array. -/
def shapeItems : List Value → List Value
  | [] => []
  | v :: items => shape v :: shapeItems items

/-- The shapes of the fields of an object. -/
def shapeFields : List (Text × Value) → List (Text × Value)
  | [] => []
  | (name, v) :: fields => (name, shape v) :: shapeFields fields

end

mutual

/-- Lays the second tree over the first. -/
def merge : Value → Value → Value
  | .obj base, w =>
    match w with
    | .obj others =>
      .obj (mergeFields base others ++ others.filter fun field => !Fields.has base field.1)
    | w => w
  | .arr base, w =>
    match w with
    | .arr others => .arr (mergeItems base others)
    | w => w
  | _, w => w

/-- Lays fields over the fields of the same name. -/
def mergeFields : List (Text × Value) → Fields → List (Text × Value)
  | [], _ => []
  | (name, v) :: fields, others =>
    (name, match others.get? name with | some w => merge v w | none => v) ::
      mergeFields fields others

/-- Lays items over the items at the same position; the longer list keeps its tail. -/
def mergeItems : List Value → List Value → List Value
  | [], others => others
  | v :: items, others =>
    match others with
    | [] => v :: items
    | w :: others => merge v w :: mergeItems items others

end

/-- The tree without any name. -/
def empty : Value := .obj []

end KeyTree

end Workflow
