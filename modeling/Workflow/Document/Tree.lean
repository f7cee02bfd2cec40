import Workflow.Value

/-!
# Document trees

The positioned form of a document: values together with the spans of their text.  An object holds
properties; a property has a key, possibly a colon, and possibly a value, since a document may be
looked at while it is being typed.

`Tree.toValue` forgets the positions.  Among repeated keys of an object the last value wins.
-/

namespace Workflow

/-- A stretch of text.  The length is negative only for a property whose value stands elsewhere,
in front of its key. -/
structure Span where
  offset : Nat
  length : Int
  deriving DecidableEq, Repr

namespace Span

/-- The position where a span ends. -/
def stop (s : Span) : Int := s.offset + s.length

/-- The span between two positions. -/
def between (start stop : Nat) : Span := ⟨start, (stop : Int) - start⟩

/-- Whether a location lies in a span, both ends included. -/
def contains (s : Span) (location : Int) : Bool :=
  decide ((s.offset : Int) ≤ location) && decide (location ≤ s.stop)

end Span

/-- A number as it was written: an integer or a floating-point number. -/
inductive Number where
  | int (n : Int)
  | float (x : Binary64)
  deriving DecidableEq, Repr

/-- The value of a number. -/
def Number.toValue : Number → Value
  | .int n => .int n
  | .float x => .float x

/-- The key of a property. -/
structure Key where
  span : Span
  name : Text
  deriving DecidableEq, Repr

/-- A key with what belongs to it. -/
structure Property (α : Type) where
  span : Span
  key : Key
  /-- Where the colon stands, if there is one. -/
  colon : Option Nat
  /-- The value, if it has been typed. -/
  value : Option α

/-- A positioned value. -/
inductive Tree where
  | null (span : Span)
  | boolean (span : Span) (b : Bool)
  | number (span : Span) (n : Number)
  | string (span : Span) (t : Text)
  | array (span : Span) (items : List Tree)
  | object (span : Span) (properties : List (Property Tree))

namespace Tree

/-- The span of a tree. -/
def span : Tree → Span
  | .null span => span
  | .boolean span _ => span
  | .number span _ => span
  | .string span _ => span
  | .array span _ => span
  | .object span _ => span

mutual

/-- The value that a tree denotes. -/
def toValue : Tree → Value
  | .null _ => .null
  | .boolean _ b => .bool b
  | .number _ n => n.toValue
  | .string _ t => .str t
  | .array _ items => .arr (itemValues items)
  | .object _ properties => .obj (Fields.ofAssignments (propertyValues properties))

/-- The values of the items of an array. -/
def itemValues : List Tree → List Value
  | [] => []
  | t :: items => t.toValue :: itemValues items

/-- The keys of an object with their values; a value that has not been typed is null. -/
def propertyValues : List (Property Tree) → List (Text × Value)
  | [] => []
  | ⟨_, key, _, some t⟩ :: properties => (key.name, t.toValue) :: propertyValues properties
  | ⟨_, key, _, none⟩ :: properties => (key.name, .null) :: propertyValues properties

end

/-- The properties of an object; no other tree has any. -/
def properties? : Tree → Option (List (Property Tree))
  | .object _ properties => some properties
  | _ => none

/-- The items of an array; no other tree has any. -/
def items? : Tree → Option (List Tree)
  | .array _ items => some items
  | _ => none

/-- Whether a tree is an object. -/
def isObject (t : Tree) : Bool := t.properties?.isSome

/-- The first property of an object with a key. -/
def property? (t : Tree) (name : Text) : Option (Property Tree) :=
  t.properties?.bind fun properties => properties.find? fun p => p.key.name == name

/-- The text of a string. -/
def text? : Tree → Option Text
  | .string _ t => some t
  | _ => none

end Tree

namespace Property

/-- The value of a property; null when it has not been typed. -/
def toValue (p : Property Tree) : Value := (p.value.map Tree.toValue).getD .null

/-- The first property with a key in the value of a property. -/
def property? (p : Property Tree) (name : Text) : Option (Property Tree) :=
  p.value.bind (Tree.property? · name)

end Property

/-- The key of the properties that declare states. -/
def statesKey : Text := "States"

/-- The names of the states that a `States` property declares, in order.  A key without a colon
counts only when `lenient` is set. -/
def declaredNames (lenient : Bool) (p : Property Tree) : List Text :=
  match p.value.bind Tree.properties? with
  | some properties =>
    properties.filterMap fun q => if lenient || q.colon.isSome then some q.key.name else none
  | none => []

end Workflow
