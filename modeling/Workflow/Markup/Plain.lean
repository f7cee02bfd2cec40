import Workflow.Markup.Cursor

/-!
# Plain scalars

A scalar without quotes goes on until a comment, a colon before a blank, a change of indentation
or, inside flow collections, one of the marks of those collections.  Blanks at its end do not
belong to it, and its line breaks are folded.
-/

namespace Workflow

namespace Markup

/-- A plain scalar as read: its text, the position behind its last code point, the cursor behind
the blanks that follow it, and whether a line was left on the way. -/
structure PlainScan where
  text : Text
  stop : Nat
  cursor : Cursor
  leftLine : Bool

/-- The code points that end a plain scalar inside flow collections. -/
def isFlowMark (c : CodePoint) : Bool := oneOf ",?[]\x7b\x7d" c

/-- The length of the next word of a plain scalar. -/
def plainWordLength (inFlow : Bool) : Text → Nat
  | [] => 0
  | c :: rest =>
    let ends :=
      isSpaceOrTab c || isBreak c ||
        (c == ':' && (endsItem rest.head? || (inFlow && rest.head?.any (oneOf ",[]\x7b\x7d")))) ||
        (inFlow && isFlowMark c)
    if ends then 0 else plainWordLength inFlow rest + 1

/-- Spaces and line breaks between the words of a plain scalar, once a line was left.  Answers the
breaks, or nothing when a document marker follows. -/
def plainBreaks : Nat → Cursor → Option Text × Cursor
  | 0, c => (some [], c)
  | fuel + 1, c =>
    if c.isAt ' ' then plainBreaks fuel c.next
    else if c.isIn isBreak then
      let (b, c) := c.lineBreak
      if c.atMarker then (none, c)
      else
        match plainBreaks fuel c with
        | (some more, c) => (some (b ++ more), c)
        | (none, c) => (none, c)
    else (some [], c)

/-- The gap between two words: the text that stands for it (nothing at the end of the scalar), the
cursor behind it, and whether a line was left. -/
def plainGap (bound : Nat) (c : Cursor) : Text × Cursor × Bool :=
  let spaces := c.run (· == ' ')
  let c := c.skip spaces.length
  if c.isIn isBreak then
    let (b, c) := c.lineBreak
    if c.atMarker then ([], c, true)
    else
      match plainBreaks bound c with
      | (none, c) => ([], c, true)
      | (some breaks, c) =>
        let first : Text := if b != "\n" then b else if breaks.isEmpty then [' '] else []
        (first ++ breaks, c, true)
  else (spaces, c, false)

/-- The words of a plain scalar from a cursor on; `gap` is the text in front of the next word. -/
def plainWords (inFlow : Bool) (indent : Int) (bound : Nat) : Nat → PlainScan → Text → PlainScan
  | 0, scan, _ => scan
  | fuel + 1, scan, gap =>
    let c := scan.cursor
    if c.isAt '#' then scan
    else
      match plainWordLength inFlow c.rest with
      | 0 => scan
      | n + 1 =>
        let text := scan.text ++ gap ++ c.rest.take (n + 1)
        let c := c.skip (n + 1)
        let (gap, after, left) := plainGap bound c
        let scan : PlainScan := ⟨text, c.index, after, left⟩
        if gap.isEmpty || after.isAt '#' || (!inFlow && decide ((after.column : Int) < indent)) then
          scan
        else plainWords inFlow indent bound fuel scan gap

/-- A plain scalar at the cursor, within a block of some indentation. -/
def plain (inFlow : Bool) (indent : Int) (bound : Nat) (c : Cursor) : PlainScan :=
  plainWords inFlow (indent + 1) bound bound ⟨[], c.index, c, false⟩ []

end Markup

end Workflow
