import Workflow.Check.Diagnostic
import Workflow.Document.Pointer
import Workflow.Json.Printer
import Workflow.Value.Digits
import Workflow.Value.Display

/-!
# The remote check

The definition of a workflow can be sent to the service that would run it.  Its answer holds a
verdict and entries, each with a pointer into the definition; the entries become diagnostics at the
parts of the document that the pointers lead to.

The answer itself comes from outside: `RemoteAnswer` says what the service did.
-/

namespace Workflow

/-- Why the service gave no verdict. -/
inductive RemoteProblem where
  | refused (code message : Text)
  | unreachable (url : Text)
  | noRegion
  deriving DecidableEq, Repr

/-- The sentence that reports a problem. -/
def RemoteProblem.message : RemoteProblem → Text
  | .refused code message =>
    "An error occurred (" ++ code ++
      ") when calling the ValidateStateMachineDefinition operation: " ++ message
  | .unreachable url => "Could not connect to the endpoint URL: \"" ++ url ++ "\""
  | .noRegion => "You must specify a region."

/-- What the service does with a definition. -/
inductive RemoteAnswer where
  | response (v : Value)
  | problem (p : RemoteProblem)
  | fault (f : Fault)

/-- Where the client of the service comes from. -/
inductive RemoteClient where
  | given
  | onDemand (region : Option Text)

/-- The clients that are made for a request, each with the name of the service and its region. -/
def RemoteClient.created : RemoteClient → List (Text × Option Text)
  | .given => []
  | .onDemand region => [("stepfunctions", region.filter fun t => !t.isEmpty)]

/-- The outcome of a remote check. -/
structure RemoteReport where
  success : Bool
  /-- The verdict of the service; null when there is none. -/
  verdict : Value
  diagnostics : List Diagnostic
  errors : List Text
  /-- The clients that were made. -/
  created : List (Text × Option Text)
  /-- The definitions that were sent. -/
  sent : List Text
  /-- The texts that are printed, one after the other. -/
  printed : List Text

namespace Remote

/-- The source of the diagnostics of the service. -/
def source : Text := "stepfunctions"

/-- The severity that a word of the service stands for. -/
def severityOf (word : Value) : Except Fault Int :=
  if word.isKey then
    match word.text? with
    | some t => .ok (if t == "ERROR" then 1 else if t == "WARNING" then 2 else 3)
    | none => .ok 3
  else .error (.notAKey word.kind)

/-- A field of an entry, or null when there is none. -/
def field (entry : Value) (name : Text) : Except Fault Value :=
  if entry.isObject then .ok (entry.get name) else .error (.noFields entry.kind)

/-- The range of an entry: that of the part it points to, or the start of an empty document. -/
def rangeOf (d : Document) (entry : Value) : Except Fault Range := do
  let part ← Pointer.part? d.root (← field entry "location")
  pure (part.elim ⟨⟨0, 0⟩, ⟨0, 0⟩⟩ fun part => d.rangeOf part.span)

/-- The message of an entry, with its code in front. -/
def messageOf (entry : Value) : Value :=
  let message := (entry.get? "message").getD (.str [])
  let code := entry.get "code"
  if code.truthy then .str (code.display ++ ": " ++ message.display) else message

/-- The diagnostic for an entry. -/
def diagnostic (d : Document) (entry : Value) : Except Fault Diagnostic := do
  let range ← rangeOf d entry
  let severity ← severityOf (entry.get "severity")
  pure ⟨range, messageOf entry, none, severity, source⟩

/-- The line that shows an entry. -/
def entryLine (icon : Text) (entry : Value) : Text :=
  let shown (name : Text) := (entry.get name).display
  icon ++ " " ++ shown "severity" ++ ": " ++ shown "code" ++ ", " ++ shown "message" ++ " at " ++
    shown "location"

/-- The lines that show a verdict and its entries. -/
def verdictLines (voice : Terminal.Voice) (verdict : Value) (entries : List Value) : List Text :=
  if verdict.same (.str "OK") then
    voice.say Terminal.green "✅ State Machine definition is valid" ::
      entries.map fun e => voice.say Terminal.yellow (entryLine "⚠️ " e)
  else
    voice.say Terminal.red ("State Machine definition is invalid: " ++ verdict.display) ::
      entries.map fun e => voice.say Terminal.red (entryLine "❌" e)

/-- The report on a response of the service. -/
def read (voice : Terminal.Voice) (d : Document) (response : Value) :
    Except Fault RemoteReport := do
  if !response.isObject then throw (.noFields response.kind)
  let verdict := response.get "result"
  let found := (response.get? "diagnostics").getD (.arr [])
  let entries ←
    match found.elements? with
    | some entries => pure entries
    | none => throw (.notASequence found.kind)
  let diagnostics ← entries.mapM (diagnostic d)
  pure ⟨true, verdict, diagnostics, [], [], [], verdictLines voice verdict entries⟩

/-- The report on a problem. -/
def failed (voice : Terminal.Voice) (p : RemoteProblem) : RemoteReport :=
  let said := "❌ Validate State Machine Definition Process Failed: " ++ p.message
  ⟨false, .null, [], [p.message], [], [], [voice.say Terminal.red said]⟩

/-- Sends the definition in a document to the service.  Nothing but an object is sent, and nothing
that cannot be written. -/
def check (voice : Terminal.Voice) (client : RemoteClient) (answer : RemoteAnswer) (d : Document) :
    Except Fault RemoteReport := do
  match d.root with
  | some (.object span properties) =>
    let workflow := (Tree.object span properties).toValue
    workflow.checkDigits
    let definition := Json.written workflow
    let report ←
      match answer with
      | .response v => read voice d v
      | .problem p => pure (failed voice p)
      | .fault f => throw f
    pure { report with created := client.created, sent := [definition] }
  | _ => pure ⟨false, .null, [], ["Document root is not an object"], [], [], []⟩

end Remote

end Workflow
