import Workflow.Fault
import Workflow.Value

/-!
# States and their kinds

A workflow is a tree of scopes.  Each scope is an object with `StartAt` and `States`; a Map state
owns one nested scope and a Parallel state a list of them.  Two generations of Map states name
the nested scope and the item template differently: `ItemProcessor` goes before `Iterator`, and
`Parameters` before `ItemSelector`.

The functions of the first half are total and used by every analysis.  The checked accessors at
the end take any value at all and say why they cannot answer.
-/

namespace Workflow

/-- The kinds of states. -/
inductive StateKind where
  | pass
  | wait
  | task
  | succeed
  | fail
  | choice
  | map
  | parallel
  | placeholder
  deriving DecidableEq, Repr

namespace StateKind

/-- The word for a kind in the `Type` field. -/
def word : StateKind → Text
  | .pass => "Pass"
  | .wait => "Wait"
  | .task => "Task"
  | .succeed => "Succeed"
  | .fail => "Fail"
  | .choice => "Choice"
  | .map => "Map"
  | .parallel => "Parallel"
  | .placeholder => "Placeholder"

/-- All kinds. -/
def all : List StateKind :=
  [.pass, .wait, .task, .succeed, .fail, .choice, .map, .parallel, .placeholder]

/-- The kind that a word names. -/
def ofWord? (t : Text) : Option StateKind := all.find? fun kind => kind.word == t

/-- Succeed and Fail end their scope. -/
def isTerminal : StateKind → Bool
  | .succeed | .fail => true
  | _ => false

/-- Kinds that may declare Catch and Retry rules. -/
def handlesErrors : StateKind → Bool
  | .task | .map | .parallel => true
  | _ => false

/-- Kinds that may declare an Assign block. -/
def bindsVariables : StateKind → Bool
  | .pass | .wait | .task | .choice | .map | .parallel => true
  | _ => false

end StateKind

namespace State

/-- The kind of a state: its `Type`, when that names one. -/
def kind? (state : Value) : Option StateKind :=
  ((state.get? "Type").bind Value.text?).bind StateKind.ofWord?

/-- Whether a state is of a given kind. -/
def isKind (state : Value) (kind : StateKind) : Bool := kind? state == some kind

/-- Whether the kind of a state has a property; a value of no kind has none. -/
def kindHas (state : Value) (property : StateKind → Bool) : Bool := (kind? state).any property

/-- States that may declare an Assign block. -/
def bindsVariables (state : Value) : Bool := kindHas state StateKind.bindsVariables

/-- States that may declare Catch rules. -/
def handlesErrors (state : Value) : Bool := kindHas state StateKind.handlesErrors

/-- The states that a scope declares, in order: the fields of its `States` object. -/
def declared? (scope : Value) : Option Fields := (scope.get? "States").bind Value.fields?

/-- Name of the field that holds the nested scope of a Map state. -/
def processorField (state : Value) : Text :=
  if (state.get? "ItemProcessor").isNone && (state.get? "Iterator").isSome then "Iterator"
  else "ItemProcessor"

/-- The nested scope of a Map state, null when there is none. -/
def processor (state : Value) : Value :=
  match state.get? "ItemProcessor" with
  | some scope => scope
  | none => state.get "Iterator"

/-- Name of the field that holds the item template of a Map state. -/
def selectorField (state : Value) : Text :=
  if (state.get? "Parameters").isSome then "Parameters" else "ItemSelector"

/-- The execution mode that a nested scope asks for, null when it does not. -/
def modeOf (scope : Value) : Value := (scope.get "ProcessorConfig").get "Mode"

/-- The execution mode of a Map state. -/
def mode (state : Value) : Value := modeOf (processor state)

/-- A Map state runs distributed only when its processor says so. -/
def isDistributed (state : Value) : Bool := (mode state).same (.str "DISTRIBUTED")

/-- The value of `Branches` as a list of scopes. -/
def branches? (state : Value) : Option (List Value) := (state.get? "Branches").bind Value.items?

/-! ## Checked accessors -/

/-- Membership of a name: a field of an object, a part of a text, an item of an array. -/
def mentions (v : Value) (name : Text) : Except Fault Bool :=
  match v with
  | .obj fields => .ok (Fields.has fields name)
  | .str t => .ok (Text.hasInfix name t)
  | .arr items => .ok (items.any fun item => item.same (.str name))
  | _ => .error .noMembers

/-- A field of a value that has to be an object; null when the field is missing. -/
def fieldOf (v : Value) (name : Text) : Except Fault Value :=
  match v with
  | .obj _ => .ok (v.get name)
  | v => .error (.noFields v.kind)

/-- The first field when the value mentions it, else the second one. -/
def preferField (v : Value) (first second : Text) : Except Fault Value :=
  match mentions v first with
  | .error e => .error e
  | .ok true => if v.isObject then .ok (v.get first) else .error .notNamed
  | .ok false => fieldOf v second

/-- The nested scope of a Map state of any shape. -/
def processor? (v : Value) : Except Fault Value := preferField v "ItemProcessor" "Iterator"

/-- Name of the field that holds the nested scope. -/
def processorField? (v : Value) : Except Fault Text :=
  match mentions v "ItemProcessor" with
  | .error e => .error e
  | .ok true => .ok "ItemProcessor"
  | .ok false => (mentions v "Iterator").map fun b => if b then "Iterator" else "ItemProcessor"

/-- The item template of a Map state of any shape. -/
def selector? (v : Value) : Except Fault Value := preferField v "Parameters" "ItemSelector"

/-- Name of the field that holds the item template. -/
def selectorField? (v : Value) : Except Fault Text :=
  (mentions v "Parameters").map fun b => if b then "Parameters" else "ItemSelector"

/-- The execution mode of a Map state of any shape. -/
def mode? (v : Value) : Except Fault Value := (processor? v).map modeOf

/-- Whether a Map state of any shape runs distributed. -/
def isDistributed? (v : Value) : Except Fault Bool :=
  (mode? v).map fun m => m.same (.str "DISTRIBUTED")

/-- Whether a Map state of any shape runs inline: no mode, or the inline one. -/
def isInline? (v : Value) : Except Fault Bool :=
  (mode? v).map fun m => m.isNull || m.same (.str "INLINE")

end State

end Workflow
