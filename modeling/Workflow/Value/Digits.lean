import Workflow.Number.Literal

/-!
# Integers that can be written

Integers grow without bound when they are read in a base that is a power of two or in base sixty,
but none with more than `Numeral.maxDigits` digits is written.  `Value.checkDigits` refuses a value
with such an integer anywhere inside.
-/

namespace Workflow

namespace Numeral

/-- The least natural number with too many digits. -/
def writtenBound : Nat := Nat.pow 10 maxDigits

/-- Whether an integer has no more digits than are written. -/
def isWritable (n : Int) : Bool := decide (n.natAbs < writtenBound)

end Numeral

namespace Value

mutual

/-- Whether all integers in a value can be written. -/
def isWritable : Value → Bool
  | .int n => Numeral.isWritable n
  | .arr items => itemsWritable items
  | .obj fields => fieldsWritable fields
  | _ => true

/-- Whether all integers in the items of an array can be written. -/
def itemsWritable : List Value → Bool
  | [] => true
  | v :: items => v.isWritable && itemsWritable items

/-- Whether all integers in the fields of an object can be written. -/
def fieldsWritable : List (Text × Value) → Bool
  | [] => true
  | (_, v) :: fields => v.isWritable && fieldsWritable fields

end

/-- Refuses a value with an integer that cannot be written. -/
def checkDigits (v : Value) : Except Fault Unit :=
  if v.isWritable then .ok () else .error .longInteger

end Value

end Workflow
