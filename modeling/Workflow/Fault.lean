import Workflow.Text.Quoted
import Workflow.Text.Units
import Workflow.Value.Kind

/-!
# Faults

The accessors of this project do not look at the shape of a value before they use it, and a few
conversions can fail.  A fault names the cause; ordinary findings about a document are
diagnostics, never faults.
-/

namespace Workflow

/-- Why an operation gave no answer. -/
inductive Fault where
  /-- Membership was asked of a value that has no members. -/
  | noMembers
  /-- A field was asked of a value that is no object. -/
  | noFields (kind : ValueKind)
  /-- A text or an array was indexed by a name. -/
  | notNamed
  /-- The last of its parts was asked of an object, which has no positions. -/
  | noPositions
  /-- An array or an object was used as a key. -/
  | notAKey (kind : ValueKind)
  /-- A value without a sequence of parts was used as one. -/
  | notASequence (kind : ValueKind)
  /-- A value that is no text was used as a pointer. -/
  | notAPointer (kind : ValueKind)
  /-- A value that is no text was to be shown as a part of a line. -/
  | notALinePart (position : Nat) (kind : ValueKind)
  /-- A value that is no text was matched against a pattern. -/
  | notText
  /-- A numeral that denotes no integer in its base. -/
  | badNumeral (base : Nat) (numeral : Text)
  /-- A decimal numeral with more digits than are read. -/
  | longNumeral (digits : Nat)
  /-- A numeral that denotes no floating-point number. -/
  | badDecimal (numeral : Text)
  /-- An integer with more digits than are written. -/
  | longInteger
  /-- An integer that is too great for a floating-point number. -/
  | hugeInteger
  /-- A number that is too great for a code point. -/
  | badCodePoint
  /-- A number that is too great for 32 bits was given for a code point. -/
  | hugeCodePoint
  /-- A numeral without any character. -/
  | emptyNumeral
  /-- A word that denotes no truth value. -/
  | badTruthWord (word : Text)
  /-- The node is not the property that declares the states of a scope. -/
  | notStatesProperty
  /-- A file name with a null character in it. -/
  | badFileName
  /-- A document that was never opened. -/
  | unknownDocument
  /-- The bytes of a file are no text. -/
  | badBytes (fault : ByteFault)
  /-- A text or a file name has no bytes. -/
  | noBytes (fault : SurrogateFault)
  /-- The remote client failed for a reason of its own. -/
  | clientFailure (reason : Text)
  /-- The user interrupted the remote client. -/
  | interrupted
  /-- The rules refer to each other in a circle. -/
  | circularRules
  deriving DecidableEq, Repr

namespace Fault

/-- How much of a quoted numeral a message shows. -/
def shownNumeral : Nat := 200

/-- The sentence that reports a fault to the user of a session. -/
def message : Fault → Text
  | .noMembers => "value has no members"
  | .noFields kind => "'" ++ kind.word ++ "' object has no attribute 'get'"
  | .notNamed => "value is not indexed by names"
  | .noPositions => "-1"
  | .notAKey kind => "unhashable type: '" ++ kind.word ++ "'"
  | .notASequence kind => "'" ++ kind.word ++ "' object is not iterable"
  | .notAPointer kind => "'" ++ kind.word ++ "' object has no attribute 'lstrip'"
  | .notALinePart position kind =>
    "sequence item " ++ Text.ofNat position ++ ": expected str instance, " ++ kind.word ++ " found"
  | .notText => "value is not a text"
  | .badNumeral base numeral =>
    "invalid literal for int() with base " ++ Text.ofNat base ++ ": " ++
      numeral.quoted.take shownNumeral
  | .longNumeral digits =>
    "Exceeds the limit (4300 digits) for integer string conversion: value has " ++
      Text.ofNat digits ++ " digits; use sys.set_int_max_str_digits() to increase the limit"
  | .badDecimal numeral => "could not convert string to float: " ++ numeral.quoted
  | .longInteger =>
    "Exceeds the limit (4300 digits) for integer string conversion; " ++
      "use sys.set_int_max_str_digits() to increase the limit"
  | .hugeInteger => "int too large to convert to float"
  | .badCodePoint => "chr() arg not in range(0x110000)"
  | .hugeCodePoint => "Python int too large to convert to C int"
  | .emptyNumeral => "string index out of range"
  | .badTruthWord word => word.quoted
  | .notStatesProperty => "Not a state name property node"
  | .badFileName => "embedded null byte"
  | .unknownDocument => "unknown document"
  | .badBytes fault => fault.message
  | .noBytes fault => fault.message
  | .clientFailure reason => reason
  | .interrupted => "interrupted"
  | .circularRules => "maximum recursion depth exceeded"

end Fault

end Workflow
