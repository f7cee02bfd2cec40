import Workflow.Terminal

/-!
# The style of reports

Reports for the terminal can be coloured and can carry icons; both are switched off separately.
Removing the escape sequences of a coloured report gives the same text as a report without colours.
-/

namespace Workflow

/-- How a report is written. -/
structure ReportStyle where
  /-- The number of blanks in front of an indented line. -/
  indent : Nat
  colors : Bool
  icons : Bool

namespace ReportStyle

/-- The usual style, with or without colours. -/
def usual (colors : Bool) : ReportStyle := ⟨2, colors, true⟩

/-- The blanks in front of an indented line. -/
def margin (style : ReportStyle) : Text := Text.copies style.indent ' '

/-- A text in a colour, where colours are wanted. -/
def paint (style : ReportStyle) (color t : Text) : Text := Terminal.paintIf style.colors color t

/-- An icon and a blank, where icons are wanted. -/
def icon (style : ReportStyle) (t : Text) : Text := if style.icons then t ++ " " else []

/-- The roles of colours in reports, with their names. -/
def palette : List (Text × Text) :=
  [("RESET", Terminal.reset), ("BOLD", Terminal.bold), ("DIM", Terminal.dim),
    ("ERROR", Terminal.brightRed), ("WARNING", Terminal.brightYellow),
    ("INFORMATION", Terminal.brightBlue), ("HINT", Terminal.gray),
    ("LOCAL_SCOPE", Terminal.brightGreen), ("OUTER_SCOPE", Terminal.brightCyan),
    ("VARIABLE", Terminal.yellow), ("TITLE", Terminal.boldCyan), ("LOCATION", Terminal.gray),
    ("CODE", Terminal.brightMagenta)]

end ReportStyle

end Workflow
