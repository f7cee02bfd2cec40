import Workflow.Check.Expression
import Workflow.Check.Properties
import Workflow.State.Visit

/-!
# Checking scopes

One scope at a time is checked, then every scope nested in it.  References (`StartAt`, `Next`,
`Default`, the `Next` of Choice and Catch rules) must name a state of the same scope; fields must
be allowed; every state must be reached by some reference, and some state must be terminal.

The findings of a scope stand in a fixed order: its own fields, `StartAt`, each state in
declaration order with the findings of its nested scopes, the missing terminal state, and the
states that nothing reaches.
-/

namespace Workflow

/-- The kinds of scopes, which differ in the fields they may have. -/
inductive ScopeKind where
  | top
  | map
  | parallel
  deriving DecidableEq, Repr

namespace ScopeKind

/-- The name of the table for a kind of scope. -/
def table : ScopeKind → Text
  | .top => "Root"
  | .map => "NestedMapRoot"
  | .parallel => "NestedParallelRoot"

/-- The kind with a given table. -/
def ofTable? (t : Text) : Option ScopeKind :=
  [ScopeKind.top, .map, .parallel].find? fun kind => kind.table == t

end ScopeKind

namespace Check

/-- A reference is wrong when its value has been typed and is not one of the names. -/
def reference (names : List Text) (code : DiagnosticCode) (p : Option (Property Tree)) :
    List Finding :=
  match p.bind Property.value with
  | some t => if t.text?.any names.contains then [] else [⟨t.span, code⟩]
  | none => []

/-- The text that a property holds. -/
def textIn (p : Option (Property Tree)) : Option Text := (p.bind Property.value).bind Tree.text?

/-- What the check of one state contributes to the check of its scope. -/
structure StateReport where
  findings : List Finding
  /-- The names that the state reaches. -/
  reached : List Text
  isTerminal : Bool

/-- The references in the rules of an array-valued field: what is wrong with them, and the names of
those that are right. -/
def rules (names : List Text) (field : Text) (state : Tree) : List Finding × List Text :=
  match ((state.property? field).bind Property.value).bind Tree.items? with
  | none => ([], [])
  | some items =>
    let targets := items.filterMap fun item => item.property? "Next"
    (targets.flatMap fun p => reference names .invalidNext (some p),
      targets.filterMap fun p =>
        if (reference names .invalidNext (some p)).isEmpty then textIn (some p) else none)

/-- The findings at the fields of a scope that its table does not allow. -/
def scopeFields (schema : Value) (kind : ScopeKind) (properties : List (Property Tree)) :
    Except Fault (List Finding) := do
  let table ← Tables.lookupD schema kind.table (.obj [])
  Tables.unknownFields (fun name => (Tables.lookup table name).map Value.truthy) properties

/-- The scopes nested in a state, with their kinds. -/
def nested (kind : Option StateKind) (state : Tree) : List (ScopeKind × Tree) :=
  match kind with
  | some .map =>
    match (state.property? (State.processorField state.toValue)).bind Property.value with
    | some scope => if scope.isObject then [(.map, scope)] else []
    | none => []
  | some .parallel =>
    match ((state.property? "Branches").bind Property.value).bind Tree.items? with
    | some scopes => (scopes.filter Tree.isObject).map fun scope => (.parallel, scope)
    | none => []
  | _ => []

/-- The kind that the first `Type` of a state names. -/
def kindOf (state : Tree) : Option StateKind :=
  (textIn (state.property? "Type")).bind StateKind.ofWord?

/-- What the Catch rules contribute; only kinds that handle errors have any. -/
def caught (names : List Text) (state : Tree) : List Finding × List Text :=
  if (kindOf state).any StateKind.handlesErrors then rules names "Catch" state else ([], [])

/-- What the `Default` and the rules of a Choice state contribute. -/
def chosen (names : List Text) (state : Tree) : List Finding × List Text :=
  if kindOf state == some .choice then
    let default := state.property? "Default"
    let wrong := reference names .invalidDefault default
    let (choices, targets) := rules names "Choices" state
    (wrong ++ choices, (if wrong.isEmpty then (textIn default).toList else []) ++ targets)
  else ([], [])

/-- The findings in the templates that a state may have whatever else its kind asks for. -/
def templates (state : Tree) : List Finding × List Finding :=
  let kind := kindOf state
  let hasTemplate := kind == some .pass || kind == some .task || kind == some .parallel
  (if hasTemplate then propertyFindings (state.property? "Parameters") else [],
    if kind.any StateKind.handlesErrors then propertyFindings (state.property? "ResultSelector")
    else [])

/-- The findings of a kind that owns scopes or has fields of its own, given the findings in the
nested scopes. -/
def kindFindings (inner : List Finding) (state : Tree) : List Finding :=
  match kindOf state with
  | some .map =>
    propertyFindings (state.property? (State.selectorField state.toValue)) ++ inner
  | some .parallel => inner
  | some .fail => failPathFindings state
  | _ => []

/-- Whether a state ends its scope: by its kind, or because its `End` is true. -/
def ends (state : Tree) : Bool :=
  let marked := match (state.property? "End").bind Property.value with
    | some (.boolean _ b) => b
    | _ => false
  marked || (kindOf state).any StateKind.isTerminal

/-- The report on a state whose fields have been checked. -/
def report (names : List Text) (inner fields : List Finding) (state : Tree) : StateReport :=
  let next := state.property? "Next"
  { findings := fields ++ (templates state).1 ++ (caught names state).1 ++ (templates state).2 ++
      kindFindings inner state ++ (chosen names state).1 ++ reference names .invalidNext next
    reached := (textIn next).toList ++ (caught names state).2 ++ (chosen names state).2
    isTerminal := ends state }

/-- Checks one state, given the names of its scope and the findings in its nested scopes. -/
def state (schema : Value) (names : List Text) (inner : List Finding) (state : Tree) :
    Except Fault StateReport :=
  (Tables.stateFindings schema (some state)).map fun fields => report names inner fields state

/-- The properties that declare a state with an object: their keys and objects, in order. -/
def declared (properties : List (Property Tree)) : List (Key × Tree) :=
  properties.filterMap fun p =>
    match p.value with
    | some t => if t.isObject then some (p.key, t) else none
    | none => none

/-- The finding at a scope without a terminal state. -/
def missingEnd (key : Key) (reports : List StateReport) : List Finding :=
  if reports.any StateReport.isTerminal then [] else [⟨key.span, .noTerminalState⟩]

/-- The findings at the declared states that nothing reaches. -/
def unreached (start : List Text) (declared : List (Key × Tree)) (reports : List StateReport) :
    List Finding :=
  let reached := start ++ reports.flatMap StateReport.reached
  declared.filterMap fun (key, _) =>
    if reached.contains key.name then none else some ⟨key.span, .unreachableState⟩

/-- The findings in a scope and in the scopes nested in it, down to a number of levels. -/
def scope (schema : Value) (lenient : Bool) : Nat → ScopeKind → Tree → Except Fault (List Finding)
  | 0, _, _ => .ok []
  | levels + 1, kind, tree => do
    let fields ← scopeFields schema kind (tree.properties?.getD [])
    match tree.property? statesKey with
    | none => pure fields
    | some states =>
      let names := declaredNames lenient states
      let start := tree.property? "StartAt"
      let wrongStart := reference names .invalidStartAt start
      match states.value.bind Tree.properties? with
      | none => pure (fields ++ wrongStart)
      | some properties =>
        let reports ← (declared properties).mapM fun (_, t) => do
          let inner ← (nested (kindOf t) t).mapM fun (k, s) => scope schema lenient levels k s
          state schema names inner.flatten t
        pure (fields ++ wrongStart ++ reports.flatMap StateReport.findings ++
          missingEnd states.key reports ++
          unreached (textIn start).toList (declared properties) reports)

end Check

/-- How documents are checked. -/
structure CheckOptions where
  schema : Value
  messages : Value
  /-- Whether a state name without a colon counts as declared. -/
  lenient : Bool

namespace Document

/-- The diagnostics for a scope of a document. -/
def checkScope (d : Document) (options : CheckOptions) (kind : ScopeKind) (t : Tree) :
    Except Fault (List Diagnostic) := do
  if t.isObject then
    let findings ← Check.scope options.schema options.lenient allLevels kind t
    d.report options.messages findings
  else pure []

/-- The diagnostics for a scope, or for the whole document when no scope is given. -/
def check (d : Document) (options : CheckOptions) (kind : ScopeKind) (t : Option Tree) :
    Except Fault (List Diagnostic) :=
  match t.or d.root with
  | some t => d.checkScope options kind t
  | none => .ok []

end Document

end Workflow
