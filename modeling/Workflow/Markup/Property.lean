import Workflow.Markup.Token
import Workflow.Text.Digit
import Workflow.Number.Literal

/-!
# Names, tags and directives

Readers for what stands in front of nodes and documents: the names of anchors and aliases, tags
with their handles, and directives.
-/

namespace Workflow

namespace Markup

/-- A non-empty name at the cursor. -/
def name (c : Cursor) : Except Problem (Text × Cursor) :=
  match c.run isNamePoint with
  | [] => .error .malformed
  | n => .ok (n, c.skip n.length)

/-- The name of an anchor or an alias; the cursor stands at its mark. -/
def anchorName (c : Cursor) : Except Problem (Text × Cursor) :=
  match name c.next with
  | .error e => .error e
  | .ok (n, c) =>
    if endsItem c.peek || c.isIn (oneOf "?:,]\x7d%@\x60") then .ok (n, c) else .error .malformed

/-! ## Tags -/

/-- A code point of a tag that is no escape. -/
def isTagPoint (c : CodePoint) : Bool :=
  c.isAsciiDigit || c.isAsciiLetter || oneOf "-;/?:@&=+$,_.!~*'()[]" c

/-- The bytes of a stretch of escapes such as `%C3%A9`. -/
def escapedBytes : Nat → Cursor → Except Problem (List Nat × Cursor)
  | 0, c => .ok ([], c)
  | fuel + 1, c =>
    if c.isAt '%' then
      match (c.ahead 1).bind CodePoint.hexValue?, (c.ahead 2).bind CodePoint.hexValue? with
      | some a, some b =>
        match escapedBytes fuel (c.skip 3) with
        | .ok (more, c) => .ok ((a * 16 + b) :: more, c)
        | .error e => .error e
      | _, _ => .error .malformed
    else .ok ([], c)

/-- The text of a tag or of the expansion of a handle, up to the first code point of another
kind. -/
def tagParts (bound : Nat) : Nat → Cursor → Except Problem (Text × Cursor)
  | 0, c => .ok ([], c)
  | fuel + 1, c =>
    let part := c.run isTagPoint
    let c := c.skip part.length
    if c.isAt '%' then
      match escapedBytes bound c with
      | .error e => .error e
      | .ok (bytes, c) =>
        match Text.decodeBytes bytes with
        | .error _ => .error .malformed
        | .ok t =>
          match tagParts bound fuel c with
          | .error e => .error e
          | .ok (more, c) => .ok (part ++ t ++ more, c)
    else .ok (part, c)

/-- A non-empty tag text. -/
def tagText (bound : Nat) (c : Cursor) : Except Problem (Text × Cursor) :=
  if c.isIn isTagPoint || c.isAt '%' then tagParts bound bound c else .error .malformed

/-- The handle of a tag: `!`, `!!` or a name between two marks. -/
def tagHandle (c : Cursor) : Except Problem (Text × Cursor) :=
  if c.isAt '!' then
    if c.ahead 1 == some ' ' then .ok ("!", c.next)
    else
      let n := c.next.run isNamePoint
      let after := c.next.skip n.length
      if after.isAt '!' then .ok ("!" ++ n ++ "!", after.next) else .error .malformed
  else .error .malformed

/-- A tag: its handle, if it has one, and its suffix. -/
def tag (bound : Nat) (c : Cursor) : Except Problem (Option Text × Text × Cursor) := do
  let (handle, suffix, c) ←
    if c.ahead 1 == some '<' then do
      let (suffix, c) ← tagText bound (c.skip 2)
      if c.isAt '>' then pure (none, suffix, c.next) else throw .malformed
    else if endsItem (c.ahead 1) then pure (none, (['!'] : Text), c.next)
    else do
      let word := c.next.run fun x => !endsWord (some x)
      let (handle, c) ← if word.contains '!' then tagHandle c else pure ("!", c.next)
      let (suffix, c) ← tagText bound c
      pure (some handle, suffix, c)
  if endsWord c.peek then pure (handle, suffix, c) else throw .malformed

/-! ## Directives -/

/-- A number of the version directive. -/
def versionNumber (c : Cursor) : Except Problem (Nat × Cursor) :=
  match c.run CodePoint.isAsciiDigit with
  | [] => .error .malformed
  | digits =>
    match Numeral.integer 10 digits with
    | .ok n => .ok (n.toNat, c.skip digits.length)
    | .error fault => .error (.fault fault)

/-- The rest of a version directive. -/
def versionDirective (c : Cursor) : Except Problem (Directive × Cursor) := do
  let (major, c) ← versionNumber c.skipSpaces
  if c.isAt '.' then
    let (_, c) ← versionNumber c.next
    if endsWord c.peek then pure (.version major, c) else throw .malformed
  else throw .malformed

/-- The rest of a directive that gives a handle its expansion. -/
def handleDirective (bound : Nat) (c : Cursor) : Except Problem (Directive × Cursor) := do
  let (handle, c) ← tagHandle c.skipSpaces
  if c.isAt ' ' then
    let (expansion, c) ← tagText bound c.skipSpaces
    if endsWord c.peek then pure (.tagHandle handle expansion, c) else throw .malformed
  else throw .malformed

/-- A directive; the cursor stands at its mark.  Answers the directive, the position where it stops
and the cursor on the next line. -/
def directive (bound : Nat) (c : Cursor) : Except Problem (Directive × Nat × Cursor) := do
  let (n, c) ← name c.next
  if !endsWord c.peek then throw .malformed
  let (d, c, stop) ←
    if n == "YAML" then do
      let (d, c) ← versionDirective c
      pure (d, c, c.index)
    else if n == "TAG" then do
      let (d, c) ← handleDirective bound c
      pure (d, c, c.index)
    else pure (.unknown, c.skipToBreak, c.index)
  let c ← c.endOfHeader
  pure (d, stop, c)

end Markup

end Workflow
