import Workflow.Document.Lines
import Workflow.Number.Literal
import Workflow.Scope.Resolve
import Workflow.Text.Case
import Workflow.Value.Display

/-!
# Commands

A line typed at the prompt is a command word with arguments, separated by blanks.  The word is read
without regard to case.  States are referred to by their id, or by their path with a slash between
its segments; positions are typed one-based, as a line and a column with a colon between them.
-/

namespace Workflow

namespace Segment

/-- The segment that a typed text stands for: digits are a branch index. -/
def ofWritten (t : Text) : Except Fault Segment :=
  if t.isDigits then (Numeral.integer 10 t).map .index else .ok (.name t)

/-- The form of a segment inside a written path. -/
def written (s : Segment) : Text := s.toValue.display

end Segment

/-- A path with a slash between its segments. -/
def Path.written (p : Path) : Text := Text.joinWith "/" (p.map Segment.written)

namespace Reference

/-- The reference that a typed text stands for: a path when there is a slash in it, else an id. -/
def ofWritten (t : Text) : Except Fault Reference :=
  if t.contains '/' then ((Text.splitOn '/' t).mapM Segment.ofWritten).map .path else .ok (.id t)

/-- The form of a reference in a title. -/
def written : Reference → Text
  | .id t => t
  | .path p => p.written
  | .unknown => []

end Reference

/-- The position that is typed before and behind the first colon of a text; nothing unless there are
digits on both sides. -/
def Position.ofWritten (t : Text) : Except Fault (Option Position) :=
  let line : Text := t.takeWhile fun (c : CodePoint) => c != ':'
  let column : Text := t.drop (line.length + 1)
  if line.isDigits && column.isDigits then do
    let l ← Numeral.integer 10 line
    let c ← Numeral.integer 10 column
    pure (some ⟨l - 1, c - 1⟩)
  else .ok none

/-- What can be typed at the prompt.  An argument that is missing or of the wrong form is absent. -/
inductive Command where
  | nothing
  | load (name : Option Text)
  /-- Lists the diagnostics, and saves the listing when a file is named. -/
  | validate (report : Option Text)
  | states
  | scope (state : Option Text)
  | complete (place : Option Text)
  | remote
  | help
  | quit
  | unknown (word : Text)
  deriving DecidableEq, Repr

namespace Command

/-- The arguments as one text, if there are any. -/
def joined (arguments : List Text) : Option Text :=
  if arguments.isEmpty then none else some (Text.joinWith " " arguments)

/-- The only argument, when there is a colon in it. -/
def place? : List Text → Option Text
  | [t] => if t.contains ':' then some t else none
  | _ => none

/-- The command that a line stands for. -/
def ofLine (line : Text) : Command :=
  match line.words with
  | [] => .nothing
  | first :: arguments =>
    let word := first.lower
    if word == "load" then .load (joined arguments)
    else if word == "validate" then .validate (joined arguments)
    else if word == "states" then .states
    else if word == "scope" then .scope (joined arguments)
    else if word == "complete" then .complete (place? arguments)
    else if word == "remote" then .remote
    else if word == "help" then .help
    else if word == "quit" || word == "exit" then .quit
    else .unknown word

/-- The file that a command reads or writes. -/
def fileName? : Command → Option Text
  | .load name => name
  | .validate name => name
  | _ => none

end Command

end Workflow
