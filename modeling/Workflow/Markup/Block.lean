import Workflow.Markup.Cursor

/-!
# Block scalars

Scalars whose text is the indented lines below a header.  A literal scalar keeps its line breaks;
a folded one joins neighbouring lines of text with a space.  The header may fix the indentation
and say what happens to the line breaks at the end: drop them, keep one, keep all.
-/

namespace Workflow

namespace Markup

/-- What happens to the line breaks at the end of a block scalar. -/
inductive Chomping where
  | strip
  | clip
  | keep
  deriving DecidableEq, Repr

/-- The chomping sign at the cursor. -/
def chompingSign (c : Cursor) : Option Chomping × Cursor :=
  if c.isAt '+' then (some .keep, c.next)
  else if c.isAt '-' then (some .strip, c.next)
  else (none, c)

/-- The indentation digit at the cursor; zero is refused. -/
def indentDigit (c : Cursor) : Except Problem (Option Nat × Cursor) :=
  match c.peek with
  | some x =>
    if x = '0' then .error .malformed
    else if x.isAsciiDigit then .ok (some (x.val - 0x30), c.next)
    else .ok (none, c)
  | none => .ok (none, c)

/-- The signs of a header, in either order. -/
def blockHeader (c : Cursor) : Except Problem (Chomping × Option Nat × Cursor) :=
  let (sign, c) := chompingSign c
  match indentDigit c with
  | .error e => .error e
  | .ok (digit, c) =>
    let (sign, c) := if sign.isNone && digit.isSome then chompingSign c else (sign, c)
    if endsWord c.peek then .ok (sign.getD .clip, digit, c) else .error .malformed

/-- Blank lines in front of the text when the indentation is not fixed: the breaks, the widest
column seen, the position behind the last break, and the cursor. -/
def leadingBlank : Nat → Cursor → Nat → Nat → Text × Nat × Nat × Cursor
  | 0, c, widest, stop => ([], widest, stop, c)
  | fuel + 1, c, widest, stop =>
    if c.isAt ' ' then
      let c := c.next
      leadingBlank fuel c (max widest c.column) stop
    else if c.isIn isBreak then
      let (b, c) := c.lineBreak
      let (more, widest, stop, c) := leadingBlank fuel c widest c.index
      (b ++ more, widest, stop, c)
    else ([], widest, stop, c)

/-- Past spaces, but not beyond a column. -/
def skipIndent (indent : Nat) (c : Cursor) : Cursor :=
  let spaces := (c.run (· == ' ')).length
  c.skip (min spaces (indent - c.column))

/-- Blank lines inside the text: the breaks, the position behind the last one, and the cursor. -/
def blankLines (indent : Nat) : Nat → Cursor → Nat → Text × Nat × Cursor
  | 0, c, stop => ([], stop, c)
  | fuel + 1, c, stop =>
    let c := skipIndent indent c
    if c.isIn isBreak then
      let (b, c) := c.lineBreak
      let (more, stop, c) := blankLines indent fuel c c.index
      (b ++ more, stop, c)
    else ([], stop, c)

/-- The end of a block scalar: its text without the final breaks, the last line break, the breaks
after it, the position where the scalar stops, and the cursor. -/
structure BlockScan where
  text : Text
  lastBreak : Text
  breaks : Text
  stop : Nat
  cursor : Cursor

/-- Whether a line of text stands at the cursor. -/
def atBlockLine (indent : Nat) (c : Cursor) : Bool := c.column == indent && c.peek.isSome

/-- The lines of a block scalar. -/
def blockLines (folded : Bool) (indent bound : Nat) : Nat → BlockScan → BlockScan
  | 0, scan => scan
  | fuel + 1, scan =>
    let c := scan.cursor
    if atBlockLine indent c then
      let indented := c.isIn isSpaceOrTab
      let line := c.run fun x => !isBreak x
      let c := c.skip line.length
      let (b, c) := c.lineBreak
      let (breaks, stop, c) := blankLines indent bound c c.index
      let text := scan.text ++ scan.breaks ++ line
      if atBlockLine indent c then
        let joint : Text :=
          if folded && b == "\n" && !indented && !c.isIn isSpaceOrTab then
            if breaks.isEmpty then [' '] else []
          else b
        blockLines folded indent bound fuel ⟨text ++ joint, b, breaks, stop, c⟩
      else ⟨text, b, breaks, stop, c⟩
    else scan

/-- A block scalar; the cursor stands at its mark, inside a block of some indentation.  Answers the
text, the position where the scalar stops, and the cursor behind it. -/
def block (folded : Bool) (indent : Int) (bound : Nat) (c : Cursor) :
    Except Problem (Text × Nat × Cursor) :=
  match blockHeader c.next with
  | .error e => .error e
  | .ok (chomping, digit, c) =>
    match c.endOfHeader with
    | .error e => .error e
    | .ok c =>
      let least := (max (indent + 1) 1).toNat
      let (depth, start) : Nat × BlockScan :=
        match digit with
        | none =>
          let (breaks, widest, stop, c) := leadingBlank bound c 0 c.index
          (max least widest, ⟨[], [], breaks, stop, c⟩)
        | some d =>
          let depth := least + d - 1
          let (breaks, stop, c) := blankLines depth bound c c.index
          (depth, ⟨[], [], breaks, stop, c⟩)
      let scan := blockLines folded depth bound bound start
      let tail : Text :=
        match chomping with
        | .strip => []
        | .clip => scan.lastBreak
        | .keep => scan.lastBreak ++ scan.breaks
      .ok (scan.text ++ tail, scan.stop, scan.cursor)

end Markup

end Workflow
