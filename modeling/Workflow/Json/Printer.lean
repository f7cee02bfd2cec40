import Workflow.Text.Units
import Workflow.Number.Shortest
import Workflow.Value

/-!
# Written JSON

The canonical text of a value: one line, a blank after every comma and colon, and only the
printable characters of ASCII.  Everything else in a string is an escape, so a code point beyond
the basic plane is written as a surrogate pair and a lone surrogate stays one.
-/

namespace Workflow

namespace Json

/-- The escape of one 16-bit unit. -/
def unitEscape (unit : Nat) : Text := "\\u" ++ Text.ofHex 4 unit

/-- The written form of one code point inside a string. -/
def writtenPoint (c : CodePoint) : Text :=
  if c = '"' then "\\\""
  else if c = '\\' then "\\\\"
  else if c = '\n' then "\\n"
  else if c = '\r' then "\\r"
  else if c = '\t' then "\\t"
  else if c = 0x08 then "\\b"
  else if c = 0x0C then "\\f"
  else if c.within 0x20 0x7E then [c]
  else c.units.flatMap unitEscape

/-- The written form of a string. -/
def writtenText (t : Text) : Text := "\"" ++ t.flatMap writtenPoint ++ "\""

/-- The words for numbers that have no digits. -/
def specialWords : Binary64.SpecialWords := ⟨"Infinity", "NaN"⟩

mutual

/-- The written form of a value. -/
def written : Value → Text
  | .null => "null"
  | .bool b => if b then "true" else "false"
  | .int n => Text.ofInt n
  | .float x => x.toText specialWords
  | .str t => writtenText t
  | .arr items => "[" ++ Text.joinWith ", " (writtenItems items) ++ "]"
  | .obj fields => "\x7b" ++ Text.joinWith ", " (writtenFields fields) ++ "\x7d"

/-- The written forms of the items of an array. -/
def writtenItems : List Value → List Text
  | [] => []
  | v :: items => written v :: writtenItems items

/-- The written forms of the fields of an object. -/
def writtenFields : List (Text × Value) → List Text
  | [] => []
  | (name, v) :: fields => (writtenText name ++ ": " ++ written v) :: writtenFields fields

end

end Json

end Workflow
