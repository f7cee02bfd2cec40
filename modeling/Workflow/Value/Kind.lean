import Workflow.Value

/-!
# Kinds of values

What a message says about a value that stands where another kind of value is needed.
-/

namespace Workflow

/-- A kind of values. -/
inductive ValueKind where
  | null
  | bool
  | int
  | float
  | str
  | arr
  | obj
  deriving DecidableEq, Repr

/-- The word for a kind in messages. -/
def ValueKind.word : ValueKind → Text
  | .null => "NoneType"
  | .bool => "bool"
  | .int => "int"
  | .float => "float"
  | .str => "str"
  | .arr => "list"
  | .obj => "dict"

/-- The kind of a value. -/
def Value.kind : Value → ValueKind
  | .null => .null
  | .bool _ => .bool
  | .int _ => .int
  | .float _ => .float
  | .str _ => .str
  | .arr _ => .arr
  | .obj _ => .obj

end Workflow
