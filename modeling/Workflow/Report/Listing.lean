import Workflow.Check.Diagnostic
import Workflow.Report.Style

/-!
# Listings of diagnostics

A listing shows diagnostics one to a line, in the order of the positions where they start, and
closes with a line of counts.  Positions are shown one-based.
-/

namespace Workflow

/-- How the diagnostics of a severity are marked. -/
structure SeverityMark where
  color : Text
  icon : Text
  label : Text

/-- The mark of a severity; an unknown severity is marked as an error. -/
def SeverityMark.of (severity : Int) : SeverityMark :=
  if severity = 2 then ⟨Terminal.brightYellow, "⚠️", "warning"⟩
  else if severity = 3 then ⟨Terminal.brightBlue, "ℹ️", "info"⟩
  else if severity = 4 then ⟨Terminal.gray, "💡", "hint"⟩
  else ⟨Terminal.brightRed, "❌", "error"⟩

namespace Position

/-- Whether a position does not come after another. -/
def precedes (p q : Position) : Bool :=
  decide (p.line < q.line) || (p.line == q.line && decide (p.character ≤ q.character))

/-- A position as it is shown: one-based. -/
def display (p : Position) : Text :=
  Text.ofInt (p.line + 1) ++ ":" ++ Text.ofInt (p.character + 1)

end Position

namespace Diagnostic

/-- Whether a diagnostic counts as an error. -/
def isError (d : Diagnostic) : Bool := d.severity == errorSeverity

/-- The word in brackets behind the label: the code, or the source when it is another one. -/
def origin? (d : Diagnostic) : Option Text :=
  match d.code with
  | some code => some code.word
  | none => if d.source == localSource then none else some d.source

/-- The line of a diagnostic.  Only a message that is a text can be shown. -/
def line (style : ReportStyle) (d : Diagnostic) : Except Fault Text :=
  let mark := SeverityMark.of d.severity
  let place := style.icon mark.icon ++ style.paint Terminal.gray d.range.start.display
  let origin := d.origin?.toList.map fun t => style.paint Terminal.brightMagenta ("[" ++ t ++ "]")
  match d.message with
  | .str message =>
    .ok (Text.joinWith " " (place :: style.paint mark.color mark.label :: (origin ++ [message])))
  | v => .error (.notALinePart (2 + origin.length) v.kind)

end Diagnostic

namespace Listing

/-- The diagnostics in the order of their positions; equal positions keep their order. -/
def ordered (diagnostics : List Diagnostic) : List Diagnostic :=
  diagnostics.mergeSort fun d e => d.range.start.precedes e.range.start

/-- The closing line. -/
def summary (style : ReportStyle) (diagnostics : List Diagnostic) : Text :=
  let errors := diagnostics.countP Diagnostic.isError
  let others := diagnostics.length - errors
  let rest : Text :=
    if others = 0 then [] else ", " ++ Text.ofNat others ++ " other diagnostic(s)"
  style.paint (if errors = 0 then Terminal.brightYellow else Terminal.brightRed)
    (Text.ofNat errors ++ " error(s)" ++ rest)

/-- The heading of a report; an empty title makes none. -/
def heading (style : ReportStyle) (title : Option Text) : List Text :=
  match title with
  | none | some [] => []
  | some t => [style.paint Terminal.boldCyan t]

/-- The lines of a listing below its heading. -/
def body (style : ReportStyle) (diagnostics : List Diagnostic) : Except Fault (List Text) :=
  match diagnostics with
  | [] => .ok [style.icon "✅" ++ style.paint Terminal.brightGreen "No problems found"]
  | diagnostics => do
    let lines ← (ordered diagnostics).mapM (Diagnostic.line style)
    pure (lines.map (style.margin ++ ·) ++ [summary style diagnostics])

/-- The listing of some diagnostics, without a line end after the last line. -/
def text (style : ReportStyle) (title : Option Text) (diagnostics : List Diagnostic) :
    Except Fault Text :=
  (body style diagnostics).map fun lines => Text.joinWith "\n" (heading style title ++ lines)

end Listing

end Workflow
