import Workflow.Document.Focus
import Workflow.Number.Literal

/-!
# Pointers

A pointer names a part of a document by the keys and positions that lead to it, each behind a
slash.  Inside a segment `~1` stands for a slash and `~0` for a tilde.

Following a pointer stops at the last part that exists: a pointer to a missing field leads to the
object that should hold it, and a pointer behind a key without a value leads to the property.
-/

namespace Workflow

namespace Pointer

/-- The text that a segment stands for.  The slashes come first, so that `~01` gives `~1`. -/
def decode (segment : Text) : Text :=
  Text.replacePair '~' '0' '~' (Text.replacePair '~' '1' '/' segment)

/-- The written form of one code point of a segment. -/
def encodePoint (c : CodePoint) : Text :=
  if c = '~' then "~0" else if c = '/' then "~1" else [c]

/-- The segment that stands for a text. -/
def encode (t : Text) : Text := t.flatMap encodePoint

/-- The pointer that leads along some keys and positions. -/
def ofSegments (segments : List Text) : Text := segments.flatMap fun t => '/' :: encode t

/-- The segments of a pointer.  Any number of slashes may stand in front. -/
def segments (pointer : Text) : List Text :=
  (Text.splitOn '/' (pointer.dropWhile fun (c : CodePoint) => c == '/')).map decode

end Pointer

namespace Tree

/-- The item of an array that a segment names by its position. -/
def itemNamed (items : List Tree) (segment : Text) : Except Fault (Option Tree) :=
  if segment.isDigits then (Numeral.integer 10 segment).map fun n => items[n.toNat]?
  else .ok none

/-- The last part on the way along some segments. -/
def follow : Tree → List Text → Except Fault Part
  | t, [] => .ok (.tree t)
  | t, segment :: rest =>
    match t.properties?, t.items? with
    | some _, _ =>
      match t.property? segment with
      | none => .ok (.tree t)
      | some p =>
        match p.value with
        | none => .ok (.property p)
        | some value => follow value rest
    | none, some items =>
      match itemNamed items segment with
      | .error fault => .error fault
      | .ok none => .ok (.tree t)
      | .ok (some item) => follow item rest
    | none, none => .ok (.tree t)

/-- The part that a pointer leads to; the empty pointer leads to the whole. -/
def atPointer (t : Tree) (pointer : Text) : Except Fault Part :=
  if pointer.isEmpty then .ok (.tree t) else t.follow (Pointer.segments pointer)

end Tree

/-- The part of a document that a pointer leads to.  A pointer that is missing counts as empty. -/
def Pointer.part? (root : Option Tree) (pointer : Value) : Except Fault (Option Part) :=
  match root with
  | none => .ok none
  | some t =>
    if pointer.truthy then
      match pointer.text? with
      | some written => (t.atPointer written).map some
      | none => .error (.notAPointer pointer.kind)
    else .ok (some (.tree t))

end Workflow
