import Workflow.Markup.Cursor
import Workflow.Text.Digit

/-!
# Quoted scalars

The text between two quotes.  Line breaks are folded: a single one becomes a space, and further
ones stay.  Between double quotes a backslash starts an escape, and a backslash at the end of a
line joins the lines; between single quotes a quote is written twice.

The readers that repeat a step take a bound on the number of repetitions, for which the length of
the whole text is enough.
-/

namespace Workflow

namespace Markup

/-- The code point of a one-letter escape. -/
def escapeLetter? (c : CodePoint) : Option CodePoint :=
  if c = '0' then some 0x00
  else if c = 'a' then some 0x07
  else if c = 'b' then some 0x08
  else if c = 't' ∨ c = '\t' then some 0x09
  else if c = 'n' then some 0x0A
  else if c = 'v' then some 0x0B
  else if c = 'f' then some 0x0C
  else if c = 'r' then some 0x0D
  else if c = 'e' then some 0x1B
  else if c = ' ' ∨ c = '"' ∨ c = '\\' ∨ c = '/' then some c
  else if c = 'N' then some 0x85
  else if c = '_' then some 0xA0
  else if c = 'L' then some 0x2028
  else if c = 'P' then some 0x2029
  else none

/-- The number of hexadecimal digits after an escape letter. -/
def escapeWidth? (c : CodePoint) : Option Nat :=
  if c = 'x' then some 2 else if c = 'u' then some 4 else if c = 'U' then some 8 else none

/-- The number that the next hexadecimal digits denote. -/
def hexNumber? (c : Cursor) (width : Nat) : Option Nat :=
  let digits := c.rest.take width
  if digits.length = width then (digits.mapM CodePoint.hexValue?).map (Text.valueOf 16) else none

/-- Line breaks and the blanks around them inside quotes.  A document marker at the start of a line
is an error. -/
def quotedBreaks : Nat → Cursor → Except Problem (Text × Cursor)
  | 0, c => .ok ([], c)
  | fuel + 1, c =>
    if c.atMarker then .error .malformed
    else
      let c := c.skipWhile isSpaceOrTab
      if c.isIn isBreak then
        let (b, c) := c.lineBreak
        match quotedBreaks fuel c with
        | .ok (more, c) => .ok (b ++ more, c)
        | .error e => .error e
      else .ok ([], c)

/-- Blanks inside quotes: kept within a line, folded at its end. -/
def quotedBlanks (bound : Nat) (c : Cursor) : Except Problem (Text × Cursor) :=
  let blanks := c.run isSpaceOrTab
  let c := c.skip blanks.length
  match c.peek with
  | none => .error .malformed
  | some x =>
    if isBreak x then
      let (b, c) := c.lineBreak
      match quotedBreaks bound c with
      | .error e => .error e
      | .ok (breaks, c) =>
        let first : Text := if b != "\n" then b else if breaks.isEmpty then [' '] else []
        .ok (first ++ breaks, c)
    else .ok (blanks, c)

/-- An escape between double quotes; the cursor stands behind the backslash. -/
def escaped (bound : Nat) (c : Cursor) : Except Problem (Text × Cursor) :=
  match c.peek with
  | none => .error .malformed
  | some x =>
    match escapeLetter? x, escapeWidth? x with
    | some p, _ => .ok ([p], c.next)
    | none, some width =>
      match hexNumber? c.next width with
      | none => .error .malformed
      | some n =>
        if h : n < 0x110000 then .ok ([⟨n, h⟩], c.next.skip width)
        else .error (.fault (if n < Nat.pow 2 31 then .badCodePoint else .hugeCodePoint))
    | none, none =>
      if isBreak x then quotedBreaks bound c.lineBreak.2 else .error .malformed

/-- A code point that stands for itself between quotes of either kind. -/
def isOrdinary (c : CodePoint) : Bool :=
  !(c == '\'' || c == '"' || c == '\\' || isSpaceOrTab c || isBreak c)

/-- The text up to the next blank or closing quote. -/
def quotedWord (double : Bool) (bound : Nat) : Nat → Cursor → Except Problem (Text × Cursor)
  | 0, c => .ok ([], c)
  | fuel + 1, c =>
    let word := c.run isOrdinary
    let c := c.skip word.length
    let step : Except Problem (Option (Text × Cursor)) :=
      if !double && c.isAt '\'' && c.ahead 1 == some '\'' then .ok (some (['\''], c.skip 2))
      else if double && c.isAt '\'' then .ok (some (['\''], c.next))
      else if !double && c.isAt '"' then .ok (some (['"'], c.next))
      else if !double && c.isAt '\\' then .ok (some (['\\'], c.next))
      else if double && c.isAt '\\' then (escaped bound c.next).map some
      else .ok none
    match step with
    | .error e => .error e
    | .ok none => .ok (word, c)
    | .ok (some (piece, c)) =>
      match quotedWord double bound fuel c with
      | .error e => .error e
      | .ok (more, c) => .ok (word ++ piece ++ more, c)

/-- Words and blanks up to the closing quote; the cursor stands behind a word. -/
def quotedRest (double : Bool) (bound : Nat) : Nat → Cursor → Except Problem (Text × Cursor)
  | 0, _ => .error .malformed
  | fuel + 1, c =>
    if c.isAt (if double then '"' else '\'') then .ok ([], c.next)
    else
      match quotedBlanks bound c with
      | .error e => .error e
      | .ok (blanks, c) =>
        match quotedWord double bound bound c with
        | .error e => .error e
        | .ok (word, c) =>
          match quotedRest double bound fuel c with
          | .error e => .error e
          | .ok (more, c) => .ok (blanks ++ word ++ more, c)

/-- The text of a quoted scalar; the cursor stands at the opening quote. -/
def quoted (double : Bool) (bound : Nat) (c : Cursor) : Except Problem (Text × Cursor) :=
  let c := c.next
  match quotedWord double bound bound c with
  | .error e => .error e
  | .ok (word, c) =>
    match quotedRest double bound bound c with
    | .error e => .error e
    | .ok (more, c) => .ok (word ++ more, c)

end Markup

end Workflow
