import Workflow.Text
import Workflow.Number.Binary64

/-!
# Values

The decoded form of a document: what a JSON or YAML text means once positions are forgotten.
Objects are lists of fields in the order of their first mention; integers, floating-point numbers
and booleans are kept apart, although `Value.same` compares them by the number they stand for.
-/

namespace Workflow

/-- A decoded value.  The fields of an object stand in insertion order. -/
inductive Value where
  | null
  | bool (b : Bool)
  | int (n : Int)
  | float (x : Binary64)
  | str (t : Text)
  | arr (items : List Value)
  | obj (fields : List (Text × Value))
  deriving Inhabited

/-- The fields of an object, in order. -/
abbrev Fields := List (Text × Value)

namespace Fields

/-- The value of the first field with a name. -/
def get? (fields : Fields) (name : Text) : Option Value :=
  (fields.find? fun field => field.1 == name).map (·.2)

/-- Whether a field with the name exists. -/
def has (fields : Fields) (name : Text) : Bool := fields.any fun field => field.1 == name

/-- The names of the fields, in order. -/
def names (fields : Fields) : List Text := fields.map (·.1)

/-- Gives a field a value: a new name goes to the end, a known one keeps its place. -/
def set (fields : Fields) (name : Text) (value : Value) : Fields :=
  if fields.has name then
    fields.map fun field => if field.1 == name then (field.1, value) else field
  else fields ++ [(name, value)]

/-- Fields from a list of assignments, in which the last assignment to a name wins. -/
def ofAssignments (assignments : List (Text × Value)) : Fields :=
  assignments.foldl (fun fields a => fields.set a.1 a.2) []

end Fields

namespace Value

/-- The fields of an object; no other value has any. -/
def fields? : Value → Option Fields
  | .obj fields => some fields
  | _ => none

/-- The items of an array; no other value has any. -/
def items? : Value → Option (List Value)
  | .arr items => some items
  | _ => none

/-- The text of a string. -/
def text? : Value → Option Text
  | .str t => some t
  | _ => none

/-- The elements of a value that is gone through: the items of an array, the characters of a text
or the names of an object. -/
def elements? : Value → Option (List Value)
  | .arr items => some items
  | .str t => some (t.map fun c => .str [c])
  | .obj fields => some (fields.map fun field => .str field.1)
  | _ => none

/-- A field of an object. -/
def get? (v : Value) (name : Text) : Option Value := v.fields?.bind (Fields.get? · name)

/-- A field of an object, or null when there is none. -/
def get (v : Value) (name : Text) : Value := (v.get? name).getD .null

/-- Whether a value is an object. -/
def isObject (v : Value) : Bool := v.fields?.isSome

/-- Whether a value is an array. -/
def isArray (v : Value) : Bool := v.items?.isSome

/-- Whether a value is null. -/
def isNull : Value → Bool
  | .null => true
  | _ => false

/-- Whether a value counts as present: null, false, zero and everything empty do not. -/
def truthy : Value → Bool
  | .null => false
  | .bool b => b
  | .int n => n != 0
  | .float x => !x.isZero
  | .str t => !t.isEmpty
  | .arr items => !items.isEmpty
  | .obj fields => !fields.isEmpty

/-- The integer that a value counts as; booleans count as one and zero. -/
def index? : Value → Option Int
  | .int n => some n
  | .bool b => some (if b then 1 else 0)
  | _ => none

/-- Equality of two values that hold no others: numbers and booleans are compared by the number
they stand for. -/
def sameLeaf (v w : Value) : Bool :=
  match v, w with
  | .null, .null => true
  | .str s, .str t => s == t
  | .float x, .float y => x.same y
  | .float x, w => match w.index? with | some n => x.sameInt n | none => false
  | v, .float y => match v.index? with | some n => y.sameInt n | none => false
  | v, w => match v.index?, w.index? with | some m, some n => m == n | _, _ => false

mutual

/-- Equality of values: arrays item by item, objects by name whatever the order. -/
def same : Value → Value → Bool
  | .arr items, w => match w with | .arr others => sameItems items others | _ => false
  | .obj fields, w =>
    match w with
    | .obj others => fields.length == others.length && sameFields fields others
    | _ => false
  | v, w => sameLeaf v w

/-- Equality of lists of values. -/
def sameItems : List Value → List Value → Bool
  | [], others => others.isEmpty
  | v :: items, others =>
    match others with
    | [] => false
    | w :: others => v.same w && sameItems items others

/-- Whether every field has its equal among the others. -/
def sameFields : List (Text × Value) → Fields → Bool
  | [], _ => true
  | (name, v) :: fields, others =>
    (match others.get? name with | some w => v.same w | none => false) && sameFields fields others

end

/-- Whether a value can be the key of a table: everything but arrays and objects. -/
def isKey : Value → Bool
  | .arr _ => false
  | .obj _ => false
  | _ => true

end Value

end Workflow
