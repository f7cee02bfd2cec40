import Workflow.Check.States
import Workflow.Completion.StateNames
import Workflow.Completion.Variables

/-!
# The language service

Answers questions about documents: diagnostics, variables in scope, and completion at an offset.
The reverse adjacency of the last document is kept; it is built anew when a question concerns
another document or another version of it.
-/

namespace Workflow

/-- A document that was opened, with an identity of its own. -/
structure OpenDocument where
  identity : Nat
  document : Document

/-- The settings and the memory of a service. -/
structure Service where
  /-- Whether state names without a colon count in every language. -/
  lenient : Bool
  schema : Value
  snapshot : Snapshot
  /-- Identity and version of the document that the snapshot was made of. -/
  resolved : Option (Nat × Int)

namespace Service

/-- A service that has not answered anything yet. -/
def new (lenient : Bool) (schema : Value) : Service := ⟨lenient, schema, Snapshot.empty, none⟩

/-- State names without a colon always count in YAML. -/
def lenientFor (s : Service) (d : Document) : Bool := s.lenient || d.isYaml

/-- Makes the snapshot belong to a document. -/
def refresh (s : Service) (d : OpenDocument) : Service :=
  let key := (d.identity, d.document.version)
  if s.resolved == some key then s
  else { s with snapshot := Snapshot.ofWorkflow d.document.workflow, resolved := some key }

/-- The diagnostics of a document; a document that is no object has none. -/
def validate (s : Service) (d : OpenDocument) : Service × Except Fault (List Diagnostic) :=
  match d.document.root with
  | some t =>
    if t.isObject then
      let s := s.refresh d
      (s, d.document.check ⟨s.schema, Tables.messages, s.lenientFor d.document⟩ .top (some t))
    else (s, .ok [])
  | none => (s, .ok [])

/-- The variables in scope at a state. -/
def variableScope (s : Service) (d : OpenDocument) (target : Reference)
    (current : Option Reference) : Service × Except Fault VariableScope :=
  let s := s.refresh d
  (s, s.snapshot.variableScope target current)

/-- The state names that fit an offset. -/
def stateNamesAt (s : Service) (d : Document) (offset : Int) : List Text :=
  match Focus.at? d.root offset with
  | some f => f.stateNames (s.lenientFor d)
  | none => []

/-- The variables that fit an offset; nothing outside of the fields that accept variables. -/
def variablesAt (s : Service) (d : OpenDocument) (offset : Int) :
    Service × Except Fault (Option Completion.Candidates) :=
  match Focus.at? d.document.root offset with
  | none => (s, .ok none)
  | some f =>
    let s := s.refresh d
    (s, Completion.at? f s.snapshot.workflow s.snapshot.entries none)

end Service

end Workflow
