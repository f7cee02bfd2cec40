import Workflow.Text

/-!
# Terminal output

Colours are escape sequences around a text.  A report can be printed with or without them, and
`stripEscapes` removes them from a text again.
-/

namespace Workflow

namespace Terminal

/-- The start of an escape sequence. -/
def escape : CodePoint := 0x1B

/-- The escape sequence with given numbers. -/
def sequence (numbers : Text) : Text := escape :: '[' :: (numbers ++ "m")

/-- The sequence that ends every colour. -/
def reset : Text := sequence "0"

/-- The colour of failures. -/
def red : Text := sequence "31"

/-- The colour of success. -/
def green : Text := sequence "32"

/-- The colour of hints to the user, and of variables. -/
def yellow : Text := sequence "33"

/-- The colour of headings. -/
def cyan : Text := sequence "36"

/-- The colour of positions and paths. -/
def gray : Text := sequence "90"

/-- The colour of errors in a report. -/
def brightRed : Text := sequence "91"

/-- The colour of a scope of its own, and of a clean report. -/
def brightGreen : Text := sequence "92"

/-- The colour of warnings in a report. -/
def brightYellow : Text := sequence "93"

/-- The colour of information in a report. -/
def brightBlue : Text := sequence "94"

/-- The colour of codes in a report. -/
def brightMagenta : Text := sequence "95"

/-- The colour of an outer scope. -/
def brightCyan : Text := sequence "96"

/-- The style of titles. -/
def boldCyan : Text := sequence "1;36"

/-- The style of emphasis. -/
def bold : Text := sequence "1"

/-- The style of remarks about something absent. -/
def dim : Text := sequence "2"

/-- A text in a colour. -/
def paint (color t : Text) : Text := color ++ t ++ reset

/-- A text in a colour, where colours are wanted. -/
def paintIf (colors : Bool) (color t : Text) : Text := if colors then paint color t else t

/-- A line of output. -/
def line (t : Text) : Text := t ++ "\n"

/-- A line of output in a colour. -/
def paintLine (color t : Text) : Text := line (paint color t)

/-- Whether something is said while work goes on, and whether in colours. -/
structure Voice where
  colors : Bool
  verbose : Bool

/-- A line of output, when output is wanted. -/
def Voice.say (voice : Voice) (color t : Text) : Text :=
  if voice.verbose then line (paintIf voice.colors color t) else []

/-- The text behind an escape sequence that starts with an escape and a bracket: numbers, then
intermediate marks, then one final letter. -/
def dropControl? (t : Text) : Option Text :=
  let rest := t.dropWhile fun c => c.within 0x30 0x3F
  match rest.dropWhile fun c => c.within 0x20 0x2F with
  | c :: rest => if c.within 0x40 0x7E then some rest else none
  | [] => none

/-- The text behind the escape character of an escape sequence: one letter, or a bracket with what
belongs to it.  Nothing when there is no complete sequence. -/
def dropSequence? : Text → Option Text
  | [] => none
  | c :: rest =>
    if c = '[' then dropControl? rest
    else if c.within 0x40 0x5F then some rest
    else none

/-- Removes the escape sequences from a text.  The first argument bounds the number of steps. -/
def stripFrom : Nat → Text → Text
  | 0, t => t
  | _ + 1, [] => []
  | fuel + 1, c :: rest =>
    if c = escape then
      match dropSequence? rest with
      | some rest => stripFrom fuel rest
      | none => c :: stripFrom fuel rest
    else c :: stripFrom fuel rest

/-- Removes the escape sequences from a text. -/
def stripEscapes (t : Text) : Text := stripFrom t.length t

end Terminal

end Workflow
