import Workflow.Check.Diagnostic
import Workflow.Check.Tables

/-!
# Allowed fields

Checks the properties of objects against tables.  A table maps names to true or to a further
table; three composite rules refer to named tables (see `Workflow.Tables`).  A rule that sends an
object to another table is followed first, before anything inside the object is looked at; tables
that send it in a circle are a fault.

The checks take tables of any shape.  A table that is no object is a fault as soon as a name is
looked up in it.
-/

namespace Workflow

namespace Tables

/-- Looks a name up in a table; null when it is missing. -/
def lookup (table : Value) (name : Text) : Except Fault Value :=
  match table with
  | .obj _ => .ok (table.get name)
  | v => .error (.noFields v.kind)

/-- Looks a name up in a table, with a value of its own for a missing name. -/
def lookupD (table : Value) (name : Text) (default : Value) : Except Fault Value :=
  match table with
  | .obj _ => .ok ((table.get? name).getD default)
  | v => .error (.noFields v.kind)

/-- What an object is checked against. -/
inductive ObjectRule where
  /-- Every field is allowed. -/
  | anything
  /-- The fields of a table, and at most one of the exclusive ones. -/
  | exclusive (table fields : Value)
  /-- The fields of a table. -/
  | plain (table : Value)

/-- The rule that a table states for objects, after it was followed to other tables.  The first
argument bounds the number of tables on the way. -/
def objectRule (named : Value) : Nat → Value → Except Fault ObjectRule
  | 0, _ => .error .circularRules
  | fuel + 1, table =>
    match table.get oneOfKey, table.get valueOfKey with
    | .str name, _ =>
      (lookup named name).map fun fields =>
        .exclusive table (if fields.truthy then fields else .obj [])
    | _, .str name =>
      match lookup named name with
      | .error e => .error e
      | .ok next => if next.isObject then objectRule named fuel next else .ok .anything
    | _, _ =>
      let inner := table.get "properties"
      .ok (.plain (if inner.isObject then inner else table))

/-- The number of tables that can be on the way of an object. -/
def ruleBound (named : Value) : Nat :=
  match named with
  | .obj fields => fields.length + 2
  | _ => 2

/-- The findings at the keys that a table does not allow. -/
def unknownFields (allowed : Text → Except Fault Bool) (properties : List (Property Tree)) :
    Except Fault (List Finding) := do
  let marks ← properties.mapM fun p => do
    let ok ← allowed p.key.name
    pure (if ok then [] else [⟨p.key.span, .invalidPropertyName⟩])
  pure marks.flatten

/-- The properties whose name has an entry in a table that counts. -/
def presentIn (fields : Value) (properties : List (Property Tree)) : List (Property Tree) :=
  properties.filter fun p => (fields.get p.key.name).truthy

mutual

/-- The findings in a tree that is checked against a table. -/
def findings (named table : Value) : Tree → Except Fault (List Finding)
  | .array _ items =>
    match table.get arrayOfKey with
    | .str name => do
      let next ← lookup named name
      if next.isObject then itemFindings named next items else pure []
    | _ => pure []
  | .object _ properties => do
    match ← objectRule named (ruleBound named) table with
    | .anything => pure []
    | .exclusive table fields =>
      let unknown ← unknownFields
        (fun name => do
          let own ← lookup fields name
          let other ← lookup table name
          pure (own.truthy || other.truthy)) properties
      let present := presentIn fields properties
      if 1 < present.length then
        pure (unknown ++ present.map fun p => ⟨p.key.span, .exclusiveProperties⟩)
      else
        let inside ← valueFindings named fields properties
        pure (unknown ++ inside)
    | .plain table => fieldFindings named table properties
  | _ => pure []

/-- The findings in the object items of an array. -/
def itemFindings (named table : Value) : List Tree → Except Fault (List Finding)
  | [] => pure []
  | t :: items => do
    let first ← if t.isObject then findings named table t else pure []
    let rest ← itemFindings named table items
    pure (first ++ rest)

/-- The findings in the properties of an object: names that the table does not allow, and what is
wrong inside the values of those it has a table for. -/
def fieldFindings (named table : Value) : List (Property Tree) → Except Fault (List Finding)
  | [] => pure []
  | ⟨_, key, _, value⟩ :: properties => do
    let entry ← lookup table key.name
    let first ←
      if entry.truthy then
        match value with
        | some t => if entry.isObject then findings named entry t else pure []
        | none => pure []
      else pure [⟨key.span, .invalidPropertyName⟩]
    let rest ← fieldFindings named table properties
    pure (first ++ rest)

/-- The findings inside the values of the properties that a table has a table for. -/
def valueFindings (named table : Value) : List (Property Tree) → Except Fault (List Finding)
  | [] => pure []
  | ⟨_, key, _, value⟩ :: properties => do
    let entry := table.get key.name
    let first ←
      match value with
      | some t => if entry.isObject && entry.truthy then findings named entry t else pure []
      | none => pure []
    let rest ← valueFindings named table properties
    pure (first ++ rest)

end

/-- The findings in a part of a document that is checked against any value as a table. -/
def findingsIn (named table : Value) (t : Option Tree) : Except Fault (List Finding) :=
  if table.isObject then
    match t with
    | some t => findings named table t
    | none => .ok []
  else .error (.noFields table.kind)

/-- The table of the kind that a state names; null for a state without a known kind. -/
def kindTable (kinds : Value) (state : Option Tree) : Except Fault Value :=
  match (state.bind (Tree.property? · "Type")).map Property.toValue with
  | some (.str name) => lookup kinds name
  | _ => .ok .null

/-- Whether a kind allows the common fields, as a state without a kind does. -/
def allowsCommon (kind : Value) : Except Fault Bool :=
  if kind.isNull then .ok true
  else
    (lookup kind "hasCommonProperties").map fun mark =>
      match mark with
      | .bool b => b
      | _ => false

/-- Whether a name is a common field, where common fields are allowed. -/
def isCommonField (common : Value) (hasCommon : Bool) (name : Text) : Except Fault Bool :=
  if hasCommon then (lookup common name).map Value.truthy else .ok false

/-- The findings at one property of a state, which may be a common field or a field of its kind. -/
def statePropertyFindings (named common kind : Value) (hasCommon : Bool) (p : Property Tree) :
    Except Fault (List Finding) := do
  let isCommon ← isCommonField common hasCommon p.key.name
  if isCommon then pure []
  else
    let fields ← lookupD (if kind.isNull then .obj [] else kind) "Properties" (.obj [])
    let entry ← lookup fields p.key.name
    if entry.truthy then
      match p.value with
      | some t => if entry.isObject then findings named entry t else pure []
      | none => pure []
    else pure [⟨p.key.span, .invalidPropertyName⟩]

/-- The findings in the properties of a state.  Common fields are allowed unless its kind opts out;
a state without a known kind has nothing but the common ones. -/
def stateFindings (schema : Value) (state : Option Tree) : Except Fault (List Finding) := do
  let kinds ← lookupD schema "StateTypes" (.obj [])
  let common ← lookupD schema "Common" (.obj [])
  let named ← lookupD schema "ReferenceTypes" (.obj [])
  let kind ← kindTable kinds state
  let hasCommon ← allowsCommon kind
  match state.bind Tree.properties? with
  | none => throw (.noFields .null)
  | some properties =>
    let perProperty ← properties.mapM (statePropertyFindings named common kind hasCommon)
    pure perProperty.flatten

end Tables

end Workflow
