import Workflow.Fault

/-!
# Reading positions

A cursor stands in a text: it knows what is left, how many code points are behind it, and its line
and column.  Five kinds of line breaks end a line here; a byte order mark has no width.

The end of the text is the absence of a code point, so the classes below that allow the end take
an optional code point.
-/

namespace Workflow

namespace Markup

/-- Why a text could not be read as a document. -/
inductive Problem where
  /-- The text breaks a rule of the notation. -/
  | malformed
  /-- A number in the text cannot be converted. -/
  | fault (cause : Fault)
  deriving DecidableEq, Repr

/-! ## Classes of code points -/

/-- A line break. -/
def isBreak (c : CodePoint) : Bool :=
  c == '\n' || c == '\r' || c == 0x85 || c == 0x2028 || c == 0x2029

/-- A blank inside a line: a space or a tab. -/
def isSpaceOrTab (c : CodePoint) : Bool := c == ' ' || c == '\t'

/-- The end of the text or of a line. -/
def endsLine (c : Option CodePoint) : Bool := c.all isBreak

/-- The end of the text or of a line, or a space. -/
def endsWord (c : Option CodePoint) : Bool := c.all fun (x : CodePoint) => x == ' ' || isBreak x

/-- The end of the text or of a line, or a blank. -/
def endsItem (c : Option CodePoint) : Bool := c.all fun x => isSpaceOrTab x || isBreak x

/-- The code points that names are made of. -/
def isNamePoint (c : CodePoint) : Bool :=
  c.isAsciiDigit || c.isAsciiLetter || c == '-' || c == '_'

/-- Membership in the code points of a string. -/
def oneOf (s : String) (c : CodePoint) : Bool := (Text.ofString s).contains c

/-- Whether a code point may occur in a document at all. -/
def isAllowed (c : CodePoint) : Bool :=
  c == 0x09 || c == 0x0A || c == 0x0D || c.within 0x20 0x7E || c == 0x85 ||
    c.within 0xA0 0xD7FF || c.within 0xE000 0xFFFD || c.within 0x10000 0x10FFFF

/-! ## Cursors -/

/-- A position in a text. -/
structure Cursor where
  rest : Text
  index : Nat
  line : Nat
  column : Nat

namespace Cursor

/-- The cursor at the start of a text. -/
def start (t : Text) : Cursor := ⟨t, 0, 0, 0⟩

/-- The code point at the cursor. -/
def peek (c : Cursor) : Option CodePoint := c.rest.head?

/-- The code point a number of places ahead. -/
def ahead (c : Cursor) (n : Nat) : Option CodePoint := c.rest[n]?

/-- Whether the cursor stands at a given code point. -/
def isAt (c : Cursor) (x : CodePoint) : Bool := c.peek == some x

/-- Whether the cursor stands at a code point of a class. -/
def isIn (c : Cursor) (p : CodePoint → Bool) : Bool := c.peek.any p

/-- Whether a code point ends its line, given what follows it. -/
def breaksLine (x : CodePoint) (rest : Text) : Bool :=
  x == '\n' || x == 0x85 || x == 0x2028 || x == 0x2029 || (x == '\r' && rest.head? != some '\n')

/-- One code point further. -/
def next (c : Cursor) : Cursor :=
  match c.rest with
  | [] => c
  | x :: rest =>
    if breaksLine x rest then ⟨rest, c.index + 1, c.line + 1, 0⟩
    else if x == 0xFEFF then ⟨rest, c.index + 1, c.line, c.column⟩
    else ⟨rest, c.index + 1, c.line, c.column + 1⟩

/-- A number of code points further. -/
def skip (c : Cursor) : Nat → Cursor
  | 0 => c
  | n + 1 => skip c.next n

/-- The longest stretch of a class at the cursor. -/
def run (c : Cursor) (p : CodePoint → Bool) : Text := c.rest.takeWhile p

/-- Past the longest stretch of a class. -/
def skipWhile (c : Cursor) (p : CodePoint → Bool) : Cursor := c.skip (c.run p).length

/-- Past spaces. -/
def skipSpaces (c : Cursor) : Cursor := c.skipWhile (· == ' ')

/-- To the end of the line. -/
def skipToBreak (c : Cursor) : Cursor := c.skipWhile fun x => !isBreak x

/-- Past a comment, if there is one. -/
def skipComment (c : Cursor) : Cursor := if c.isAt '#' then c.skipToBreak else c

/-- Past one line break, with the text that stands for it: the two rare separators stand for
themselves, the others for a line feed.  Nothing happens where there is no line break. -/
def lineBreak (c : Cursor) : Text × Cursor :=
  match c.rest with
  | [] => ([], c)
  | x :: rest =>
    if x == '\r' && rest.head? == some '\n' then (['\n'], c.skip 2)
    else if x == '\n' || x == '\r' || x == 0x85 then (['\n'], c.next)
    else if x == 0x2028 || x == 0x2029 then ([x], c.next)
    else ([], c)

/-- Whether a document marker, `---` or `...`, stands at the cursor. -/
def atMarker (c : Cursor) : Bool :=
  (("---" : Text).isPrefixOf c.rest || ("..." : Text).isPrefixOf c.rest) && endsItem (c.ahead 3)

/-- Past the rest of a line that may hold only a comment. -/
def endOfHeader (c : Cursor) : Except Problem Cursor :=
  let c := c.skipSpaces.skipComment
  if endsLine c.peek then .ok c.lineBreak.2 else .error .malformed

end Cursor

end Markup

end Workflow
