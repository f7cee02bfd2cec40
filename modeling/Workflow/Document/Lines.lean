import Workflow.Text

/-!
# Lines and characters

Conversion between offsets and zero-based positions.  A line ends with a line feed, a carriage
return, or both in this order; offsets and positions outside of the text are brought back to its
nearest end.
-/

namespace Workflow

/-- A zero-based line and character. -/
structure Position where
  line : Int
  character : Int
  deriving DecidableEq, Repr

/-- The part of a text between two positions. -/
structure Range where
  start : Position
  stop : Position
  deriving DecidableEq, Repr

namespace Text

/-- The offsets behind the line ends of a text that starts at an offset. -/
def lineStartsFrom (offset : Nat) : Text → List Nat
  | [] => []
  | [c] => if c = '\r' ∨ c = '\n' then [offset + 1] else []
  | c :: d :: rest =>
    if c = '\r' ∧ d = '\n' then (offset + 2) :: lineStartsFrom (offset + 2) rest
    else if c = '\r' ∨ c = '\n' then (offset + 1) :: lineStartsFrom (offset + 1) (d :: rest)
    else lineStartsFrom (offset + 1) (d :: rest)

/-- The offsets at which the lines of a text start. -/
def lineStarts (t : Text) : List Nat := 0 :: lineStartsFrom 0 t

/-- An offset brought into the text. -/
def clamp (t : Text) (offset : Int) : Nat := (max 0 (min offset t.length)).toNat

/-- The position of an offset. -/
def positionAt (t : Text) (offset : Int) : Position :=
  let o := t.clamp offset
  let before := t.lineStarts.filter fun s => decide (s ≤ o)
  ⟨(before.length : Int) - 1, (o : Int) - (before.getLast?.getD 0 : Nat)⟩

/-- The offset of a position.  A character beyond its line is taken back to the start of the next
line, or to the end of the text. -/
def offsetAt (t : Text) (p : Position) : Nat :=
  let starts := t.lineStarts
  if p.line < 0 then 0
  else
    match starts[p.line.toNat]? with
    | none => t.length
    | some start =>
      let stop := (starts[p.line.toNat + 1]?).getD t.length
      (max (start : Int) (min ((start : Int) + p.character) (stop : Int))).toNat

end Text

end Workflow
