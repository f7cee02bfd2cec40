import Workflow.Number.Shortest
import Workflow.Text.Quoted
import Workflow.Value

/-!
# Values in messages

How a value appears inside a line of output.  A text stands for itself; inside an array or an object
it is put between quotes, so that the items can be told apart.
-/

namespace Workflow

namespace Value

/-- The words for numbers that have no digits. -/
def specialWords : Binary64.SpecialWords := ⟨"inf", "nan"⟩

mutual

/-- The form of a value inside an array or an object. -/
def inspected : Value → Text
  | .null => "None"
  | .bool b => if b then "True" else "False"
  | .int n => Text.ofInt n
  | .float x => x.toText specialWords
  | .str t => t.quoted
  | .arr items => "[" ++ Text.joinWith ", " (inspectedItems items) ++ "]"
  | .obj fields => "\x7b" ++ Text.joinWith ", " (inspectedFields fields) ++ "\x7d"

/-- The forms of the items of an array. -/
def inspectedItems : List Value → List Text
  | [] => []
  | v :: items => v.inspected :: inspectedItems items

/-- The forms of the fields of an object. -/
def inspectedFields : List (Text × Value) → List Text
  | [] => []
  | (name, v) :: fields => (name.quoted ++ ": " ++ v.inspected) :: inspectedFields fields

end

/-- The form of a value in a line of output. -/
def display : Value → Text
  | .str t => t
  | v => v.inspected

end Value

end Workflow
