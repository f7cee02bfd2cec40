import Workflow.Remote
import Workflow.Report.Drawing
import Workflow.Report.Listing
import Workflow.Service
import Workflow.Session.Command
import Workflow.Value.Digits

/-!
# Sessions

A session holds the document that was loaded last and answers commands about it.  `Session.run`
takes one command and answers the session that comes after it, what is printed, and whether the
session goes on.  The messages of the session itself are always coloured; reports and the messages
of the loader follow its settings.

What is printed goes to an output, which may refuse a text.  A text that is refused is not printed
at all, and nothing that the command would have done after it is done; what was printed before it
stays printed.
-/

namespace Workflow

/-- What a command prints, and whether the session goes on. -/
structure Reply where
  printed : Text
  goesOn : Except Fault Bool

namespace Reply

/-- The session goes on. -/
def said (printed : Text) : Reply := ⟨printed, .ok true⟩

/-- The command came to a fault. -/
def failed (fault : Fault) : Reply := ⟨[], .error fault⟩

/-- A reply behind a text that was printed before. -/
def behind (reply : Reply) (printed : Text) : Reply := ⟨printed ++ reply.printed, reply.goesOn⟩

end Reply

/-- Where a session prints to. -/
inductive Output where
  /-- Texts are kept in memory as they are. -/
  | memory
  /-- Texts are written as bytes. -/
  | bytes
  deriving DecidableEq, Repr

namespace Output

/-- Why an output refuses a text: surrogates have no bytes. -/
def refusal? : Output → Text → Option Fault
  | .memory, _ => none
  | .bytes, t => t.surrogateFault?.map .noBytes

/-- Prints texts, one after the other, up to the first one that is refused. -/
def print (output : Output) : List Text → Reply
  | [] => .said []
  | t :: texts =>
    match output.refusal? t with
    | some fault => .failed fault
    | none => (print output texts).behind t

end Output

/-- The memory of an interactive session. -/
structure Session where
  output : Output
  colors : Bool
  storage : Storage
  /-- What the remote service does when it is asked. -/
  remote : RemoteAnswer
  service : Service
  document : Option OpenDocument
  /-- The name under which the document was loaded. -/
  path : Option Text
  /-- How many documents have been loaded. -/
  loaded : Nat

namespace Session

open Terminal (line paint paintLine red green yellow cyan gray)

/-- A session in which nothing has happened yet. -/
def new (output : Output) (colors : Bool) (storage : Storage) (remote : RemoteAnswer) : Session :=
  ⟨output, colors, storage, remote, Service.new false Tables.packaged, none, none, 0⟩

/-- The style of the reports of a session. -/
def style (s : Session) : ReportStyle := ReportStyle.usual s.colors

/-- How the loader of a session speaks. -/
def voice (s : Session) : Terminal.Voice := ⟨s.colors, true⟩

/-- Prints texts, one after the other. -/
def say (s : Session) (texts : List Text) : Session × Reply := (s, s.output.print texts)

/-- Prints texts before something else is done, which is not done when one of them is refused. -/
def sayFirst (s : Session) (texts : List Text) (next : Session × Reply) : Session × Reply :=
  let reply := s.output.print texts
  match reply.goesOn with
  | .ok _ => (next.1, next.2.behind reply.printed)
  | .error _ => (s, reply)

/-- Loads a file.  The document changes only when loading succeeds. -/
def load (s : Session) (name : Text) : Session × Reply :=
  match loadFile s.voice s.storage name with
  | .error fault => (s, .failed fault)
  | .ok result =>
    s.sayFirst [result.printed] <|
      match result.document with
      | none => s.say (result.errors.map fun e => paintLine red ("❌ " ++ e))
      | some d =>
        ({ s with document := some ⟨s.loaded, d⟩, path := some name, loaded := s.loaded + 1 } :
          Session).say [paintLine green ("✅ Loaded " ++ name)]

/-- The advice to load a document. -/
def noDocument : Text :=
  paintLine yellow "⚠️  No document loaded. Use 'load <file>' first."

/-- Answers with the document, or asks for one. -/
def withDocument (s : Session) (answer : OpenDocument → Session × Reply) : Session × Reply :=
  match s.document with
  | some d => answer d
  | none => s.say [noDocument]

/-- Saves a report without its escape sequences.  The file of a report without bytes stays
empty. -/
def save (s : Session) (report name : Text) : Session × Reply :=
  match FileName.fault? name with
  | some fault => (s, .failed fault)
  | none =>
    let content := Terminal.stripEscapes report
    let gap := content.surrogateFault?
    match s.storage.write name (if gap.isSome then [] else content.bytes) with
    | .ok storage =>
      let s := { s with storage := storage }
      match gap with
      | some fault => (s, .failed (.noBytes fault))
      | none => s.say [paintLine green ("✅ Report saved to " ++ name)]
    | .error problem =>
      s.say [paintLine red ("❌ Error saving report: " ++ problem.message name)]

/-- Lists the diagnostics of the document, and saves the listing when a file is named. -/
def validate (s : Session) (report : Option Text) : Session × Reply :=
  s.withDocument fun d =>
    let (service, found) := s.service.validate d
    let s := { s with service := service }
    match found >>= Listing.text s.style s.path with
    | .error fault => (s, .failed fault)
    | .ok listing =>
      s.sayFirst [line listing] <|
        match report with
        | none => s.say []
        | some name => s.save listing name

/-- The line that shows a state: its id, its type and its path, indented by its owners. -/
def stateLine (v : Visit) : Except Fault Text := do
  let depth := (v.path.filterMap Segment.name?).length - 1
  let type : Value := if v.state.isObject then (v.state.get? "Type").getD (.str "?") else .str "?"
  type.checkDigits
  pure (Text.copies (2 * depth) ' ' ++ "• " ++ v.id ++ " (" ++ type.display ++ ")  " ++
    paintLine gray v.path.written)

/-- Lists the states of the document. -/
def states (s : Session) : Session × Reply :=
  s.withDocument fun d =>
    match allStates d.document.workflow with
    | [] => s.say [paintLine yellow "⚠️  The document declares no states"]
    | visits =>
      match visits.mapM stateLine with
      | .ok lines => s.say lines
      | .error fault => (s, .failed fault)

/-- Draws the variables in scope at a state. -/
def scope (s : Session) (state : Text) : Session × Reply :=
  s.withDocument fun d =>
    match Reference.ofWritten state with
    | .error fault => (s, .failed fault)
    | .ok reference =>
      let (service, found) := s.service.variableScope d reference none
      let s := { s with service := service }
      match found >>= Drawing.text s.style (some reference.written) with
      | .error fault => (s, .failed fault)
      | .ok drawing => s.say [line drawing]

/-- The lines that show the candidates at a place. -/
def candidateLines (place : Text) (names : List Text) (found : Option Completion.Candidates) :
    List Text :=
  let items := (found.map Completion.Candidates.items).getD []
  let parent := (found.map Completion.Candidates.parentPath).getD []
  let shown (title : Text) (candidates : List Text) : List Text :=
    if candidates.isEmpty then []
    else [line (paint cyan (title ++ ":") ++ " " ++ Text.joinWith ", " candidates)]
  let inside : Text := if parent.isEmpty then [] else " (in " ++ parent ++ ")"
  if names.isEmpty && items.isEmpty then
    [paintLine yellow ("⚠️  No completion candidates at " ++ place)]
  else shown "State names" names ++ shown ("Variables" ++ inside) items

/-- Lists what can be typed at a place. -/
def complete (s : Session) (place : Text) : Session × Reply :=
  s.withDocument fun d =>
    match Position.ofWritten place with
    | .error fault => (s, .failed fault)
    | .ok none => s.say [paintLine red "❌ Line and column must be positive numbers"]
    | .ok (some position) =>
      let offset : Int := d.document.text.offsetAt position
      let names := s.service.stateNamesAt d.document offset
      let (service, found) := s.service.variablesAt d offset
      let s := { s with service := service }
      match found with
      | .error fault => (s, .failed fault)
      | .ok found => s.say (candidateLines place names found)

/-- Asks the remote service about the document.  Its messages are coloured in every session. -/
def askRemote (s : Session) : Session × Reply :=
  s.withDocument fun d =>
    match Remote.check ⟨true, true⟩ (.onDemand none) s.remote d.document with
    | .error fault => (s, .failed fault)
    | .ok report =>
      if report.success && !report.diagnostics.isEmpty then
        match Listing.text s.style (some "AWS Step Functions") report.diagnostics with
        | .error fault => s.sayFirst report.printed (s, .failed fault)
        | .ok listing => s.say (report.printed ++ [line listing])
      else s.say report.printed

/-- The list of commands. -/
def helpLines : List Text :=
  paintLine cyan "Commands:" ::
    ([ "  load <file>         Load a JSON or YAML state machine definition",
      "  validate [file]     List structural diagnostics, optionally saving the report",
      "  states              List every state with its path",
      "  scope <state>       Show the variables in scope (id, or path such as Par/0/Inner)",
      "  complete <l>:<c>    Show completion candidates at a 1-based position",
      "  remote              Validate with AWS Step Functions (needs credentials)",
      "  help                Show this message",
      "  quit                Exit" ] : List Text).map line

/-- How a command is used. -/
def usage (s : Session) (form : Text) : Session × Reply :=
  s.say [paintLine yellow ("Usage: " ++ form)]

/-- Runs a command. -/
def run (s : Session) : Command → Session × Reply
  | .nothing => s.say []
  | .load none => s.usage "load <file>"
  | .load (some name) => s.load name
  | .validate report => s.validate report
  | .states => s.states
  | .scope none => s.usage "scope <state id | path/with/segments>"
  | .scope (some state) => s.scope state
  | .complete none => s.usage "complete <line>:<column>"
  | .complete (some place) => s.complete place
  | .remote => s.askRemote
  | .help => s.say helpLines
  | .quit => (s, ⟨[], .ok false⟩)
  | .unknown word =>
    let said := "❌ Unknown command: " ++ word ++ ". Type 'help' for the list of commands."
    s.say [paintLine red said]

end Session

end Workflow
